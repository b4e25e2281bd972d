import Mathlib.Logic.Function.Basic
import Mudou.Lib.Run

/-!
# The server's connection table

`_conns` of `TcpServer`, and the counter that numbers connections and
`RunAfter` timers. The connections are told apart by the order in which they
were accepted.

`RemoveConnectionInLoop` looks a connection up by its id as an `int`, which
`find` takes back to 64 bits. An `int` keeps the ids below `2^31` and the last
`2^31` ids, and takes every other one to the one of these with the same low 32
bits (`lookup_eq_iff`). `tableExact_iff` is the result over every run: the
table is exact as long as no id drawn for a connection is in use, each
connection removed from the table has an id that an `int` keeps, and one
removed again shares its low 32 bits with no such key (`IdsFit`). Below `2^31`
ids it always is (`tableExact_of_few`).
-/

namespace Mudou

structure TcpServer where
  nextId : UInt64
  /-- `_conns`: the number of the connection under an id -/
  conns : UInt64 → Option Nat
  /-- the `_conn_id`s of the connections accepted -/
  connIds : List UInt64

namespace TcpServer

def new : TcpServer := ⟨0, fun _ => none, []⟩

/-- `Connection::Id`: a `uint64_t` returned as an `int`. -/
def idOf (connId : UInt64) : Int := Int.bmod connId.toNat 4294967296

def runAfterInLoop (s : TcpServer) : TcpServer := { s with nextId := s.nextId + 1 }

/-- `insert` leaves an entry that is there. -/
def newConnection (s : TcpServer) : TcpServer :=
  let nextId := s.nextId + 1
  { nextId
    conns := if (s.conns nextId).isNone then Function.update s.conns nextId (some s.connIds.length) else s.conns
    connIds := s.connIds ++ [nextId] }

/-- The key that `find` is given. -/
def lookup (connId : UInt64) : UInt64 := UInt64.ofInt (idOf connId)

def removeConnectionInLoop (k : Nat) (s : TcpServer) : TcpServer :=
  match s.connIds[k]? with
  | none => s
  | some connId =>
    if (s.conns (lookup connId)).isSome then
      { s with conns := Function.update s.conns (lookup connId) none }
    else s

/-- `removeConnectionInLoop k` for a connection `k` that has been accepted. -/
inductive Op where
  | newConnection
  | runAfterInLoop
  | removeConnectionInLoop (k : Nat)

def Op.exec (s : TcpServer) : Op → TcpServer
  | .newConnection => s.newConnection
  | .runAfterInLoop => s.runAfterInLoop
  | .removeConnectionInLoop k => s.removeConnectionInLoop k

/-- The server, and the connections that were removed. -/
structure Observed where
  server : TcpServer
  removed : Nat → Bool

def Op.removed (o : Observed) : Op → Nat → Bool
  | .removeConnectionInLoop k => if k < o.server.connIds.length then Function.update o.removed k true else o.removed
  | _ => o.removed

def Observed.new : Observed := ⟨TcpServer.new, fun _ => false⟩

def Observed.next (o : Observed) (op : Op) (o' : Observed) : Prop := o' = ⟨op.exec o.server, op.removed o⟩

/-- `_conns` holds the connections accepted and not removed. -/
def TableExact (o : Observed) : Prop :=
  ∀ k, (∃ id, o.server.conns id = some k) ↔ k < o.server.connIds.length ∧ o.removed k = false

/-- The ids that an `int` keeps: those whose upper 33 bits are equal. -/
def KeptByInt (id : UInt64) : Prop := id.toNat < 2147483648 ∨ 18446744071562067968 ≤ id.toNat

/-- A new id is not in the table. A connection that is removed has an id that
an `int` keeps, if it is in the table, and else shares its low 32 bits with no
key that an `int` keeps. -/
def IdsFit (o : Observed) : Op → Prop
  | .newConnection => o.server.conns (o.server.nextId + 1) = none
  | .runAfterInLoop => True
  | .removeConnectionInLoop k => ∀ connId, o.server.connIds[k]? = some connId →
    (o.server.conns connId = some k → KeptByInt connId) ∧
      (o.server.conns connId ≠ some k → ∀ id, KeptByInt id →
        id.toNat % 4294967296 = connId.toNat % 4294967296 → o.server.conns id = none)

/-! ## Ids as `int` -/

theorem toNat_ofInt (z : Int) : (UInt64.ofInt z).toNat = (z % 18446744073709551616).toNat := by
  change (z % 18446744073709551616).toNat % 18446744073709551616 = _
  omega

/-- The key looked up is the one with the same low 32 bits that an `int` keeps. -/
theorem lookup_eq_iff (connId id : UInt64) :
    lookup connId = id ↔ KeptByInt id ∧ id.toNat % 4294967296 = connId.toNat % 4294967296 := by
  have hlt := connId.toNat_lt
  have hlt' := id.toNat_lt
  have he : (lookup connId).toNat =
      (Int.bmod connId.toNat 4294967296 % 18446744073709551616).toNat := toNat_ofInt _
  rw [Int.bmod_def] at he
  rw [← UInt64.toNat_inj, KeptByInt]
  constructor
  · intro h
    constructor
    · omega
    · omega
  · rintro ⟨hk, hm⟩
    omega

theorem lookup_self_iff (connId : UInt64) : lookup connId = connId ↔ KeptByInt connId :=
  (lookup_eq_iff connId connId).trans (and_iff_left rfl)

theorem lookup_of_low {connId id : UInt64} (hk : KeptByInt id)
    (hm : id.toNat % 4294967296 = connId.toNat % 4294967296) : lookup connId = id :=
  (lookup_eq_iff connId id).mpr ⟨hk, hm⟩

/-! ## The table -/

/-- The entries are under their connections' ids. -/
structure Keyed (o : Observed) : Prop where
  entry {id k} : o.server.conns id = some k → o.server.connIds[k]? = some id
  removed {k} : o.removed k = true → k < o.server.connIds.length

variable {o o' : Observed} {k : Nat}

theorem new_keyed : Keyed Observed.new :=
  ⟨fun h => (Option.some_ne_none _ h.symm).elim, fun h => Bool.noConfusion h⟩

theorem Keyed.lt (h : Keyed o) {id : UInt64} (e : o.server.conns id = some k) : k < o.server.connIds.length :=
  (List.getElem?_eq_some_iff.mp (h.entry e)).1

/-- The entry of an accepted connection is under its own id. -/
theorem Keyed.id_eq (h : Keyed o) {id connId : UInt64} (e : o.server.conns id = some k)
    (hk : o.server.connIds[k]? = some connId) : id = connId :=
  Option.some.inj ((h.entry e).symm.trans hk)

theorem conns_newConnection {s : TcpServer} {id : UInt64} : s.newConnection.conns id =
    if id = s.nextId + 1 ∧ s.conns id = none then some s.connIds.length else s.conns id := by
  rw [newConnection]
  simp only [Option.isNone_iff_eq_none]
  by_cases hn : s.conns (s.nextId + 1) = none
  · rw [if_pos hn]
    by_cases e : id = s.nextId + 1
    · rw [e, Function.update_self, if_pos ⟨rfl, hn⟩]
    · rw [Function.update_of_ne e, if_neg fun h => e h.1]
  · rw [if_neg hn, if_neg]
    rintro ⟨rfl, h⟩
    exact hn h

theorem conns_removeConnectionInLoop {s : TcpServer} {connId : UInt64} (hk : s.connIds[k]? = some connId)
    (id : UInt64) : (s.removeConnectionInLoop k).conns id = if id = lookup connId then none else s.conns id := by
  rw [removeConnectionInLoop, hk]
  simp only
  by_cases hs : (s.conns (lookup connId)).isSome = true
  · rw [if_pos hs]
    show Function.update s.conns (lookup connId) none id = _
    rw [Function.update_apply]
  · rw [if_neg hs]
    by_cases e : id = lookup connId
    · rw [if_pos e, e, Option.not_isSome_iff_eq_none.mp hs]
    · rw [if_neg e]

/-- The step meets the condition if and only if the connection looked up is
the one that is removed. -/
theorem Keyed.idsFit_iff (h : Keyed o) {connId : UInt64} (hk : o.server.connIds[k]? = some connId) :
    IdsFit o (.removeConnectionInLoop k) ↔ (o.server.conns connId = some k → lookup connId = connId) ∧
      ∀ j, o.server.conns (lookup connId) = some j → j = k := by
  constructor
  · intro hf
    obtain ⟨hown, hother⟩ := hf connId hk
    refine ⟨fun e => (lookup_self_iff connId).mpr (hown e), fun j e => ?_⟩
    by_cases he : o.server.conns connId = some k
    · rw [(lookup_self_iff connId).mpr (hown he), he] at e
      exact (Option.some.inj e).symm
    · obtain ⟨hl, hm⟩ := (lookup_eq_iff connId _).mp rfl
      exact (Option.some_ne_none _ (e.symm.trans (hother he _ hl hm))).elim
  · rintro ⟨hown, hother⟩ _ hk'
    obtain rfl := Option.some.inj (hk.symm.trans hk')
    refine ⟨fun e => (lookup_self_iff _).mp (hown e), fun hne id hi hm => ?_⟩
    refine Option.eq_none_iff_forall_ne_some.mpr fun j e => hne ?_
    rw [← lookup_of_low hi hm] at e
    obtain rfl := hother j e
    rwa [h.id_eq e hk] at e

theorem connIds_removeConnectionInLoop (k : Nat) (s : TcpServer) :
    (s.removeConnectionInLoop k).connIds = s.connIds := by
  rw [removeConnectionInLoop]
  split
  · rfl
  · split
    · rfl
    · rfl

theorem removed_removeConnectionInLoop (hk : k < o.server.connIds.length) :
    Op.removed o (.removeConnectionInLoop k) = Function.update o.removed k true := if_pos hk

/-- Nothing happens for a connection that was not accepted. -/
theorem next_of_not_lt (hk : ¬ k < o.server.connIds.length) (hn : o.next (.removeConnectionInLoop k) o') :
    o' = o := by
  have hr : Op.removed o (.removeConnectionInLoop k) = o.removed := if_neg hk
  rw [hn, hr, Op.exec, removeConnectionInLoop, List.getElem?_eq_none (Nat.le_of_not_lt hk)]

theorem Keyed.next (h : Keyed o) {op : Op} (hn : o.next op o') : Keyed o' := by
  subst hn
  cases op with
  | newConnection =>
    refine ⟨fun {id k} e => ?_, fun {k} e => ?_⟩
    · change o.server.newConnection.conns id = some k at e
      show (o.server.connIds ++ [o.server.nextId + 1])[k]? = some id
      rw [conns_newConnection] at e
      split at e
      · next hi =>
        obtain rfl := Option.some.inj e
        rw [List.getElem?_concat_length, hi.1]
      · rw [List.getElem?_append_left (h.lt e)]
        exact h.entry e
    · show k < (o.server.connIds ++ [o.server.nextId + 1]).length
      rw [List.length_append]
      exact Nat.lt_add_right _ (h.removed e)
  | runAfterInLoop => exact ⟨h.entry, h.removed⟩
  | removeConnectionInLoop k =>
    by_cases hk : k < o.server.connIds.length
    · have he : o.server.connIds[k]? = some o.server.connIds[k] := List.getElem?_eq_getElem hk
      refine ⟨fun {id j} e => ?_, fun {j} e => ?_⟩
      · show (o.server.removeConnectionInLoop k).connIds[j]? = some id
        change (o.server.removeConnectionInLoop k).conns id = some j at e
        rw [conns_removeConnectionInLoop he] at e
        rw [connIds_removeConnectionInLoop]
        split at e
        · exact (Option.some_ne_none _ e.symm).elim
        · exact h.entry e
      · show j < (o.server.removeConnectionInLoop k).connIds.length
        rw [connIds_removeConnectionInLoop]
        change Op.removed o (.removeConnectionInLoop k) j = true at e
        rw [removed_removeConnectionInLoop hk] at e
        by_cases hj : j = k
        · exact hj ▸ hk
        · rw [Function.update_of_ne hj] at e
          exact h.removed e
    · rw [next_of_not_lt hk rfl]
      exact h

/-! ### One step -/

theorem tableExact_next (h : Keyed o) (ht : TableExact o) {op : Op} (hn : o.next op o') (hl : IdsFit o op) :
    TableExact o' := by
  cases op with
  | newConnection =>
    subst hn
    have hl : o.server.conns (o.server.nextId + 1) = none := hl
    intro k
    show (∃ id, o.server.newConnection.conns id = some k) ↔
      k < (o.server.connIds ++ [o.server.nextId + 1]).length ∧ o.removed k = false
    have hc : ∀ id, o.server.newConnection.conns id =
        if id = o.server.nextId + 1 then some o.server.connIds.length else o.server.conns id := by
      intro id
      rw [conns_newConnection]
      by_cases e : id = o.server.nextId + 1
      · rw [if_pos ⟨e, e ▸ hl⟩, if_pos e]
      · rw [if_neg fun hi => e hi.1, if_neg e]
    rw [List.length_append]
    by_cases hk : k = o.server.connIds.length
    · refine iff_of_true ⟨o.server.nextId + 1, by rw [hc, if_pos rfl, hk]⟩ ⟨?_, Bool.eq_false_iff.mpr fun hr => ?_⟩
      · exact hk ▸ Nat.lt_succ_self _
      · exact Nat.lt_irrefl _ (hk ▸ h.removed hr)
    · have he : (∃ id, o.server.newConnection.conns id = some k) ↔ ∃ id, o.server.conns id = some k := by
        refine exists_congr fun id => ?_
        rw [hc]
        by_cases e : id = o.server.nextId + 1
        · rw [if_pos e, e, hl]
          exact iff_of_false (fun he => hk (Option.some.inj he).symm) (Option.some_ne_none _).symm
        · rw [if_neg e]
      rw [he, ht k]
      refine and_congr_left fun _ => ?_
      show _ ↔ k < o.server.connIds.length + 1
      omega
  | runAfterInLoop =>
    subst hn
    exact ht
  | removeConnectionInLoop k =>
    by_cases hk : k < o.server.connIds.length
    · subst hn
      have he : o.server.connIds[k]? = some o.server.connIds[k] := List.getElem?_eq_getElem hk
      obtain ⟨hown, hother⟩ := (h.idsFit_iff he).mp hl
      intro j
      show (∃ id, (o.server.removeConnectionInLoop k).conns id = some j) ↔
        j < (o.server.removeConnectionInLoop k).connIds.length ∧ Op.removed o (.removeConnectionInLoop k) j = false
      simp only [conns_removeConnectionInLoop he, connIds_removeConnectionInLoop, removed_removeConnectionInLoop hk]
      by_cases hj : j = k
      · subst hj
        refine iff_of_false ?_ fun hr => ?_
        · rintro ⟨id, e⟩
          split at e
          · exact Option.some_ne_none _ e.symm
          · next hne =>
            obtain rfl := h.id_eq e he
            exact hne (hown e).symm
        · rw [Function.update_self] at hr
          exact Bool.noConfusion hr.2
      · rw [Function.update_of_ne hj, ← ht j]
        refine exists_congr fun id => ?_
        by_cases e : id = lookup o.server.connIds[k]
        · rw [if_pos e, e]
          exact iff_of_false (Option.some_ne_none _).symm fun ej => hj (hother j ej)
        · rw [if_neg e]
    · rw [next_of_not_lt hk hn]
      exact ht

/-- A connection that is not inserted, not erased, or erased for another. -/
theorem idsFit_of_tableExact (h : Keyed o) (ht : TableExact o) {op : Op} (hn : o.next op o')
    (ht' : TableExact o') : IdsFit o op := by
  subst hn
  cases op with
  | newConnection =>
    show o.server.conns (o.server.nextId + 1) = none
    by_contra hc
    have hr : o.removed o.server.connIds.length = false :=
      Bool.eq_false_iff.mpr fun hr => Nat.lt_irrefl _ (h.removed hr)
    have hlt : o.server.connIds.length < (o.server.connIds ++ [o.server.nextId + 1]).length := by
      rw [List.length_append]
      exact Nat.lt_succ_self _
    obtain ⟨id, e⟩ := (ht' o.server.connIds.length).mpr ⟨hlt, hr⟩
    change o.server.newConnection.conns id = _ at e
    rw [conns_newConnection] at e
    split at e
    · next hi => exact hc (hi.1 ▸ hi.2)
    · exact Nat.lt_irrefl _ (h.lt e)
  | runAfterInLoop => trivial
  | removeConnectionInLoop k =>
    by_cases hk : k < o.server.connIds.length
    · have he : o.server.connIds[k]? = some o.server.connIds[k] := List.getElem?_eq_getElem hk
      have hc : ∀ j, (∃ id, (if id = lookup o.server.connIds[k] then none else o.server.conns id) = some j) ↔
          j < o.server.connIds.length ∧ Function.update o.removed k true j = false := by
        intro j
        have hj := ht' j
        change (∃ id, (o.server.removeConnectionInLoop k).conns id = some j) ↔
          j < (o.server.removeConnectionInLoop k).connIds.length ∧
            Op.removed o (.removeConnectionInLoop k) j = false at hj
        simpa only [conns_removeConnectionInLoop he, connIds_removeConnectionInLoop,
          removed_removeConnectionInLoop hk] using hj
      refine (h.idsFit_iff he).mpr ⟨fun hown => ?_, fun j hj => ?_⟩
      · by_contra hne
        obtain ⟨_, hr⟩ := (hc k).mp ⟨o.server.connIds[k], by rw [if_neg (Ne.symm hne)]; exact hown⟩
        rw [Function.update_self] at hr
        exact Bool.noConfusion hr
      · by_contra hne
        obtain ⟨hlt, hr⟩ := (ht j).mp ⟨_, hj⟩
        obtain ⟨id, e⟩ := (hc j).mpr ⟨hlt, by rw [Function.update_of_ne hne]; exact hr⟩
        split at e
        · exact Option.some_ne_none _ e.symm
        · next hid => exact hid (h.id_eq e (h.entry hj))
    · intro connId he
      exact (hk (List.getElem?_eq_some_iff.mp he).1).elim

/-! ## Runs -/

theorem new_tableExact : TableExact Observed.new := by
  refine fun k => iff_of_false ?_ fun hk => Nat.not_lt_zero k hk.1
  rintro ⟨id, e⟩
  exact Option.some_ne_none _ e.symm

theorem keyed_tableExact_next (o : Observed) (op : Op) (o' : Observed) (h : Keyed o ∧ TableExact o)
    (hn : o.next op o') (hl : IdsFit o op) : Keyed o' ∧ TableExact o' :=
  ⟨h.1.next hn, tableExact_next h.1 h.2 hn hl⟩

/-- Over every run of the server, with any number of ids drawn, the table is
exact at all times if and only if the ids of every step fit. -/
theorem tableExact_iff (ops : List Op) :
    Run.Throughout Observed.next TableExact ops Observed.new ↔ Run.Meets Observed.next IdsFit ops Observed.new := by
  have hI : ∀ o : Observed, Keyed o ∧ TableExact o → TableExact o := fun _ h => h.2
  have hP : ∀ (o : Observed) (op : Op) (o' : Observed), Keyed o ∧ TableExact o → o.next op o' → TableExact o' →
      IdsFit o op := fun _ _ _ h hn ht => idsFit_of_tableExact h.1 h.2 hn ht
  exact Run.throughout_iff hI keyed_tableExact_next hP ops _ ⟨new_keyed, new_tableExact⟩

/-- The ids of the connections are different, and none is larger than the last drawn. -/
structure Drawn (o : Observed) : Prop extends Keyed o where
  le : ∀ connId ∈ o.server.connIds, connId.toNat ≤ o.server.nextId.toNat
  nodup : o.server.connIds.Nodup

theorem toNat_succ {id : UInt64} (h : id.toNat + 1 < 18446744073709551616) : (id + 1).toNat = id.toNat + 1 := by
  rw [UInt64.toNat_add, UInt64.toNat_one]
  exact Nat.mod_eq_of_lt h

theorem Drawn.fresh (h : Drawn o) (hlt : o.server.nextId.toNat + 1 < 18446744073709551616) :
    o.server.nextId + 1 ∉ o.server.connIds := by
  intro hm
  have hle := h.le _ hm
  rw [toNat_succ hlt] at hle
  omega

theorem Drawn.idsFit (h : Drawn o) (hlt : o.server.nextId.toNat + 1 < 2147483648) (op : Op) : IdsFit o op := by
  cases op with
  | newConnection =>
    refine Option.eq_none_iff_forall_ne_some.mpr fun k e => h.fresh (by omega) ?_
    exact List.mem_of_getElem? (h.entry e)
  | runAfterInLoop => trivial
  | removeConnectionInLoop k =>
    intro connId he
    have hle := h.le connId (List.mem_of_getElem? he)
    have hl : KeptByInt connId := .inl (by omega)
    refine ⟨fun _ => hl, fun hne id hi hm => Option.eq_none_iff_forall_ne_some.mpr fun j hj => hne ?_⟩
    obtain rfl : connId = id := ((lookup_self_iff connId).mpr hl).symm.trans (lookup_of_low hi hm)
    have hjk : j = k := (List.getElem?_inj (List.getElem?_eq_some_iff.mp (h.entry hj)).1 h.nodup).mp
      ((h.entry hj).trans he.symm)
    rwa [hjk] at hj

theorem Drawn.next (h : Drawn o) {op : Op} (hlt : o.server.nextId.toNat + 1 < 18446744073709551616)
    (hn : o.next op o') : Drawn o' ∧ o'.server.nextId.toNat ≤ o.server.nextId.toNat + 1 := by
  have hk := h.toKeyed.next hn
  subst hn
  cases op with
  | newConnection =>
    refine ⟨⟨hk, fun connId hm => ?_, ?_⟩, Nat.le_of_eq (toNat_succ hlt)⟩
    · show connId.toNat ≤ (o.server.nextId + 1).toNat
      rw [toNat_succ hlt]
      rcases List.mem_append.mp hm with hm | hm
      · exact Nat.le_succ_of_le (h.le connId hm)
      · exact Nat.le_of_eq (by rw [List.mem_singleton.mp hm, toNat_succ hlt])
    · exact List.nodup_append.mpr ⟨h.nodup, List.pairwise_singleton .., fun a ha b hb e =>
        h.fresh hlt (List.mem_singleton.mp hb ▸ e ▸ ha)⟩
  | runAfterInLoop =>
    refine ⟨⟨hk, fun connId hm => ?_, h.nodup⟩, Nat.le_of_eq (toNat_succ hlt)⟩
    show connId.toNat ≤ (o.server.nextId + 1).toNat
    rw [toNat_succ hlt]
    exact Nat.le_succ_of_le (h.le connId hm)
  | removeConnectionInLoop k =>
    have hc : (o.server.removeConnectionInLoop k).nextId = o.server.nextId := by
      rw [removeConnectionInLoop]
      split
      · rfl
      · split <;> rfl
    have hi := connIds_removeConnectionInLoop k o.server
    refine ⟨⟨hk, fun connId hm => ?_, ?_⟩, ?_⟩
    · show connId.toNat ≤ (o.server.removeConnectionInLoop k).nextId.toNat
      rw [hc]
      exact h.le connId (hi ▸ hm)
    · show (o.server.removeConnectionInLoop k).connIds.Nodup
      rw [hi]
      exact h.nodup
    · show (o.server.removeConnectionInLoop k).nextId.toNat ≤ _
      rw [hc]
      exact Nat.le_succ _

theorem Drawn.meets (ops : List Op) : ∀ {o : Observed}, Drawn o →
    o.server.nextId.toNat + ops.length < 2147483648 → Run.Meets Observed.next IdsFit ops o := by
  induction ops with
  | nil => exact fun _ _ => trivial
  | cons op ops ih =>
    intro o h hlt o' hn
    rw [List.length_cons] at hlt
    obtain ⟨h', hle⟩ := h.next (by omega) hn
    exact ⟨h.idsFit (by omega) op, ih h' (by omega)⟩

/-- With fewer than `2^31` operations the table is exact. -/
theorem tableExact_of_few (ops : List Op) (h : ops.length < 2147483648) :
    Run.Throughout Observed.next TableExact ops Observed.new := by
  have hm : Run.Meets Observed.next IdsFit ops Observed.new := by
    refine Drawn.meets ops ⟨new_keyed, fun _ hm => absurd hm List.not_mem_nil, .nil⟩ ?_
    show 0 + ops.length < 2147483648
    omega
  exact Run.throughout_of_meets (fun _ h => h.2) keyed_tableExact_next ops _
    ⟨new_keyed, new_tableExact⟩ hm

/-- After `n` ids drawn by `RunAfter`. -/
theorem throughout_runAfter {ops : List Op} (n : Nat) : ∀ {o : Observed},
    Run.Throughout Observed.next TableExact (List.replicate n .runAfterInLoop ++ ops) o →
      Run.Throughout Observed.next TableExact ops
        { o with server := { o.server with nextId := o.server.nextId + UInt64.ofNat n } } := by
  induction n with
  | zero =>
    intro o h
    have h0 : o.server.nextId + UInt64.ofNat 0 = o.server.nextId := UInt64.add_zero _
    rw [h0]
    exact h
  | succ n ih =>
    intro o h
    have h := ih ((h.2 _ rfl : Run.Throughout _ _ (List.replicate n .runAfterInLoop ++ ops) _))
    rw [UInt64.ofNat_add, UInt64.ofNat_one, UInt64.add_comm (UInt64.ofNat n), ← UInt64.add_assoc]
    exact h

/-- A connection whose id is not the key it is looked up by. -/
theorem not_tableExact_of_lookup_ne {nextId : UInt64} (hne : lookup (nextId + 1) ≠ nextId + 1) :
    ¬ Run.Throughout Observed.next TableExact [.newConnection, .removeConnectionInLoop 0]
      ⟨⟨nextId, fun _ => none, []⟩, fun _ => false⟩ := by
  intro h
  have hk : Keyed ⟨⟨nextId, fun _ => none, []⟩, fun _ => false⟩ :=
    ⟨fun e => (Option.some_ne_none _ e.symm).elim, fun e => Bool.noConfusion e⟩
  obtain ⟨ht, h⟩ := h.2 _ rfl
  have hl := idsFit_of_tableExact (hk.next rfl) ht rfl (h _ rfl) (nextId + 1) rfl
  exact hne ((lookup_self_iff _).mpr (hl.1 (Function.update_self ..)))

/-- The first connection after `n` calls of `RunAfter`. -/
theorem not_tableExact_after (n : Nat) (hne : lookup (0 + UInt64.ofNat n + 1) ≠ 0 + UInt64.ofNat n + 1) :
    ¬ Run.Throughout Observed.next TableExact
      (List.replicate n .runAfterInLoop ++ [.newConnection, .removeConnectionInLoop 0]) Observed.new :=
  fun h => not_tableExact_of_lookup_ne hne (throughout_runAfter n h)

/-- The id `2^31` is looked up as `2^64 - 2^31`. -/
theorem unfound_after_runAfters : ¬ ∀ ops : List Op, Run.Throughout Observed.next TableExact ops Observed.new := by
  intro h
  have hn : (0 + UInt64.ofNat 2147483647 + 1).toNat = 2147483648 := by decide +kernel
  refine not_tableExact_after 2147483647 (fun he => ?_) (h _)
  have hr := (lookup_self_iff _).mp he
  rw [KeptByInt, hn] at hr
  omega

end TcpServer

end Mudou
