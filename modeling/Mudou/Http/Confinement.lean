import Mudou.Http.Server
import Mudou.Lib.LexicalPath

/-!
# Where static files are

`IsFileHandler` accepts a path if `ValidPath` does, and `FileHandler` opens
the base directory's name with the path behind it. `ValidPath` counts levels
and wants one to be left before each `..` (`validPath_iff`); it counts a
component `.` as a level down, so the depth of a walk is that level less the
`.`s before (`staysBelow_iff`). It knows nothing of the base directory, and a
path without a slash in front changes the last component of its name.

`confined_iff`: an accepted path stays in the base directory if and only if
neither of the two is to its harm (`PathFits`): no `..` behind a `.` takes a
level that the `.`s have paid for, and a missing slash makes no sibling of the
directory. `dotPath_leaves` is an accepted path that does leave.
-/

namespace Mudou

open Util LexicalPath

namespace Util

theorem filter_cons_ne {d : Bytes} (h : d ≠ []) (dirs : List Bytes) :
    (d :: dirs).filter (· ≠ []) = d :: dirs.filter (· ≠ []) :=
  List.filter_cons_of_pos (by simpa using h)

/-- The level that `ValidPath` has counted after these components. -/
def level : List Bytes → Int
  | [] => 0
  | d :: dirs => (if d = [] then 0 else if d = str ".." then -1 else 1) + level dirs

/-- The levels among them that are none. -/
def dots (dirs : List Bytes) : Nat := dirs.count (str ".")

/-- What comes before each `..` meets a condition. -/
def BeforeParents (p : List Bytes → Prop) (dirs : List Bytes) : Prop :=
  ∀ k < dirs.length, dirs[k]? = some (str "..") → p (dirs.take k)

instance {p : List Bytes → Prop} [DecidablePred p] (dirs : List Bytes) : Decidable (BeforeParents p dirs) :=
  inferInstanceAs (Decidable (∀ k < dirs.length, dirs[k]? = some (str "..") → p (dirs.take k)))

/-- From the level `n` on, no `..` behind a `.` takes a level that the `.`s
before it have paid for. -/
def DotsPaid (n : Int) (dirs : List Bytes) : Prop :=
  BeforeParents (fun before => str "." ∈ before → dots before < n + level before) dirs

instance (n : Int) (dirs : List Bytes) : Decidable (DotsPaid n dirs) :=
  inferInstanceAs (Decidable (BeforeParents _ dirs))

theorem beforeParents_nil (p : List Bytes → Prop) : BeforeParents p [] :=
  fun _ hk => absurd hk (Nat.not_lt_zero _)

theorem beforeParents_cons (p : List Bytes → Prop) (d : Bytes) (dirs : List Bytes) :
    BeforeParents p (d :: dirs) ↔ (d = str ".." → p []) ∧ BeforeParents (fun before => p (d :: before)) dirs := by
  constructor
  · intro h
    exact ⟨fun e => h 0 (Nat.succ_pos _) (congrArg some e), fun k hk e => h (k + 1) (Nat.succ_lt_succ hk) e⟩
  · rintro ⟨h0, h⟩ k hk e
    cases k with
    | zero => exact h0 (Option.some.inj e)
    | succ k => exact h k (Nat.lt_of_succ_lt_succ hk) e

theorem beforeParents_congr {p q : List Bytes → Prop} {dirs : List Bytes} (h : ∀ before, p before ↔ q before) :
    BeforeParents p dirs ↔ BeforeParents q dirs :=
  forall_congr' fun _ => forall_congr' fun _ => forall_congr' fun _ => h _

theorem level_nil_cons (dirs : List Bytes) : level ([] :: dirs) = level dirs := by
  rw [level, if_pos rfl, Int.zero_add]

theorem level_parent_cons (dirs : List Bytes) : level (str ".." :: dirs) = level dirs - 1 := by
  rw [level, if_neg (by decide), if_pos rfl, Int.add_comm, Int.sub_eq_add_neg]

theorem level_down_cons {d : Bytes} (h0 : d ≠ []) (hp : d ≠ str "..") (dirs : List Bytes) :
    level (d :: dirs) = 1 + level dirs := by
  rw [level, if_neg h0, if_neg hp]

theorem dots_cons_ne {d : Bytes} (h : d ≠ str ".") (dirs : List Bytes) : dots (d :: dirs) = dots dirs :=
  List.count_cons_of_ne h

theorem dots_dot_cons (dirs : List Bytes) : dots (str "." :: dirs) = dots dirs + 1 := List.count_cons_self

/-- The loop wants a level to be left before each `..`. -/
theorem validLevels_iff (dirs : List Bytes) : ∀ n : Int, validLevels (dirs.filter (· ≠ [])) n = true ↔
    BeforeParents (fun before => 0 < n + level before) dirs := by
  induction dirs with
  | nil => exact fun n => iff_of_true rfl (beforeParents_nil _)
  | cons d dirs ih =>
    intro n
    rw [beforeParents_cons]
    by_cases h0 : d = []
    · subst h0
      rw [List.filter_cons_of_neg (by decide), ih, and_iff_right fun e => absurd e (by decide)]
      simp only [level_nil_cons]
    · rw [filter_cons_ne h0, validLevels]
      by_cases hp : d = str ".."
      · subst hp
        have hl : ∀ before, 0 < n - 1 + level before ↔ 0 < n + level (str ".." :: before) := fun before => by
          rw [level_parent_cons]
          omega
        rw [if_pos rfl, ← beforeParents_congr hl, ← ih, show level [] = 0 from rfl, Int.add_zero]
        by_cases hn : n - 1 < 0
        · rw [if_pos hn]
          exact iff_of_false Bool.false_ne_true fun h => absurd (h.1 rfl) (by omega)
        · rw [if_neg hn]
          exact (and_iff_right fun _ => by omega).symm
      · have hl : ∀ before, 0 < n + 1 + level before ↔ 0 < n + level (d :: before) := fun before => by
          rw [level_down_cons h0 hp, Int.add_assoc]
        rw [if_neg hp, ih, beforeParents_congr hl]
        exact (and_iff_right fun e => absurd e hp).symm

theorem validPath_iff (path : Bytes) :
    validPath path = true ↔ BeforeParents (fun before => 0 < level before) (components path) := by
  have hs : (split path (str "/") []).1 = (components path).filter (· ≠ []) := split_byte 47 path
  rw [validPath, hs, validLevels_iff]
  exact beforeParents_congr fun before => by rw [Int.zero_add]

/-- How deep a walk is: the level, without the `.`s. -/
theorem staysBelow_iff (dirs : List Bytes) : ∀ n : Nat, staysBelow n dirs = true ↔
    BeforeParents (fun before => dots before < n + level before) dirs := by
  induction dirs with
  | nil => exact fun n => iff_of_true rfl (beforeParents_nil _)
  | cons d dirs ih =>
    intro n
    rw [beforeParents_cons, staysBelow]
    by_cases h0 : d = []
    · subst h0
      rw [if_pos (.inl rfl), ih, and_iff_right fun e => absurd e (by decide)]
      simp only [level_nil_cons, dots_cons_ne (show [] ≠ str "." by decide)]
    · by_cases h1 : d = str "."
      · subst h1
        have hl : ∀ before, (dots before : Int) < n + level before ↔
            (dots (str "." :: before) : Int) < n + level (str "." :: before) := fun before => by
          rw [level_down_cons (by decide) (by decide), dots_dot_cons]
          omega
        rw [if_pos (.inr rfl), ih, beforeParents_congr hl]
        exact (and_iff_right fun e => absurd e (by decide)).symm
      · have hs : ¬ Stays d := fun hs => hs.elim h0 h1
        rw [if_neg hs]
        by_cases hp : d = str ".."
        · subst hp
          have hl : ∀ before, 0 < n → ((dots before : Int) < (n - 1 : Nat) + level before ↔
              (dots (str ".." :: before) : Int) < n + level (str ".." :: before)) := fun before hn => by
            rw [level_parent_cons, dots_cons_ne h1]
            omega
          rw [if_pos (show str ".." = [46, 46] from rfl), Bool.and_eq_true, decide_eq_true_iff, ih]
          have h0 : (str ".." = str ".." → (dots [] : Int) < n + level []) ↔ 0 < n :=
            ⟨fun h => by simpa [dots, level] using h rfl, fun h _ => by simpa [dots, level] using h⟩
          rw [h0]
          exact and_congr_right fun hn => beforeParents_congr fun before => hl before hn
        · have hl : ∀ before, (dots before : Int) < (n + 1 : Nat) + level before ↔
              (dots (d :: before) : Int) < n + level (d :: before) := fun before => by
            rw [level_down_cons h0 hp, dots_cons_ne h1]
            omega
          rw [if_neg (show d ≠ [46, 46] from hp), ih, beforeParents_congr hl]
          exact (and_iff_right fun e => absurd e hp).symm

/-- Where `ValidPath` finds a level left before each `..`, only `.`s can be
amiss. -/
theorem staysBelow_iff_dotsPaid {dirs : List Bytes} {n : Nat}
    (h : BeforeParents (fun before => 0 < n + level before) dirs) : staysBelow n dirs = true ↔ DotsPaid n dirs := by
  rw [staysBelow_iff]
  constructor
  · exact fun hd k hk e _ => hd k hk e
  · intro hd k hk e
    by_cases hm : str "." ∈ dirs.take k
    · exact hd k hk e hm
    · have h0 : dots (dirs.take k) = 0 := List.count_eq_zero.mpr hm
      rw [h0]
      exact h k hk e

end Util

namespace HttpServer

variable {srv : HttpServer} {t : Nat} {req : HttpRequest}

theorem baseDir_ne_nil (h : srv.isFileHandler t req = true) : srv.baseDir ≠ [] := by
  intro e
  rw [isFileHandler, if_pos e] at h
  cases h

theorem validPath_of_isFileHandler (h : srv.isFileHandler t req = true) : validPath req.path = true := by
  unfold isFileHandler at h
  split at h
  · cases h
  · split at h
    · cases h
    · split at h
      · cases h
      · next hv => exact Bool.not_eq_false _ ▸ hv

/-- The name of a file is that of the base directory with more behind it: the
path, with a name in place of its last component if that is empty. -/
theorem reqPath_eq (srv : HttpServer) (path : Bytes) : ∃ rest, srv.reqPath path = srv.baseDir ++ rest ∧
    (components rest = components path ∨ ∃ c cs, components path = c :: cs ++ [[]] ∧
      components rest = c :: cs ++ [str "index.html"]) := by
  unfold reqPath
  by_cases h : path.getLast? = some 47
  · obtain ⟨q, rfl⟩ := List.getLast?_eq_some_iff.mp h
    obtain ⟨c, cs, e⟩ := List.exists_cons_of_ne_nil (components_ne_nil q)
    refine ⟨q ++ 47 :: str "index.html", ?_, .inr ⟨c, cs, ?_, ?_⟩⟩
    · rw [if_pos h, List.append_assoc, List.append_assoc]
      rfl
    · rw [← e]
      exact List.splitOn_append_cons_self q []
    · rw [← e]
      exact List.splitOn_append_cons_self q (str "index.html")
  · exact ⟨path, if_neg h, .inl rfl⟩

theorem staysBelow_concat (c : Bytes) (hc : c ≠ str "..") (cs : List Bytes) : ∀ n : Nat,
    staysBelow n (cs ++ [c]) = staysBelow n cs := by
  induction cs with
  | nil =>
    intro n
    have hc : ¬ c = [46, 46] := hc
    simp [staysBelow, hc]
  | cons d cs ih =>
    intro n
    rw [List.cons_append, staysBelow, staysBelow, ih, ih, ih]

theorem fromDir_concat (last c d : Bytes) (cs : List Bytes) :
    fromDir last (c :: cs ++ [d]) = fromDir last (c :: cs) ++ [d] := by
  rw [List.cons_append, fromDir, fromDir]
  split
  · rfl
  · split
    · rfl
    · split <;> rfl

/-- The last component of the base directory's name. -/
def baseName (srv : HttpServer) : Bytes := (components srv.baseDir).getLast (components_ne_nil _)

/-- The name that `index.html` is appended to stays where the path does. -/
theorem confined_reqPath (cwd : Dir) (hb : srv.baseDir ≠ []) (path : Bytes) :
    Confined cwd srv.baseDir (srv.reqPath path) ↔
      resolve cwd srv.baseDir = [] ∨ staysBelow 0 (fromDir srv.baseName (components path)) = true := by
  obtain ⟨rest, e, hr⟩ := srv.reqPath_eq path
  rw [e, confined_append_iff cwd hb, ← baseName]
  rcases hr with hr | ⟨c, cs, hp, hr⟩
  · rw [hr]
  · rw [hr, hp, fromDir_concat, fromDir_concat, staysBelow_concat _ (by decide),
      staysBelow_concat _ (by decide)]

/-! ## What the check misses -/

/-- What `ValidPath` misses does no harm behind a base directory whose name
ends in the component `last`. Without a slash in between `last` becomes longer:
the name of a sibling, `..` for two `.`, or a name from which two levels lead
up to the directory that `..` stands for. -/
def PathFits (last path : Bytes) : Prop :=
  if last = [] ∨ path = [] ∨ path.head? = some 47 then DotsPaid 0 (components path)
  else if last = str "." then (components path).head? ≠ some (str ".") ∧ DotsPaid 0 (components path)
  else if last = str ".." then DotsPaid 2 (components path).tail
  else False

/-- Without a component `.`, and with a slash in between, the check misses
nothing. -/
theorem pathFits_of_noDot {last path : Bytes} (hd : str "." ∉ components path)
    (hs : last = [] ∨ path = [] ∨ path.head? = some 47) : PathFits last path := by
  rw [PathFits, if_pos hs]
  exact fun _ _ _ hm => absurd (List.mem_of_mem_take hm) hd

theorem head_components_eq_nil {path c : Bytes} {cs : List Bytes} (e : components path = c :: cs) :
    c = [] ↔ path = [] ∨ path.head? = some 47 := by
  cases path with
  | nil => exact iff_of_true (List.cons.inj e).1.symm (.inl rfl)
  | cons x path =>
    rw [components, List.splitOn_cons_eq_if_modifyHead] at e
    by_cases hx : x = 47
    · rw [if_pos (beq_iff_eq.mpr hx)] at e
      exact iff_of_true (List.cons.inj e).1.symm (.inr (congrArg some hx))
    · rw [if_neg (mt beq_iff_eq.mp hx)] at e
      obtain ⟨d, ds, hd⟩ := List.exists_cons_of_ne_nil (components_ne_nil path)
      rw [← components, hd] at e
      refine iff_of_false (fun hc => ?_) (by simp [hx])
      rw [hc] at e
      exact List.cons_ne_nil _ _ (List.cons.inj e).1

theorem dot_append_ordinary {c : Bytes} (h0 : c ≠ []) (h1 : c ≠ str ".") :
    ¬ Stays (str "." ++ c) ∧ str "." ++ c ≠ [46, 46] := by
  refine ⟨?_, fun e => h1 (List.cons.inj e).2⟩
  rintro (e | e)
  · exact List.cons_ne_nil _ _ e
  · exact h0 (List.cons.inj e).2

theorem staysBelow_parent (cs : List Bytes) : staysBelow 0 (str ".." :: cs) = false := by
  rw [staysBelow, if_neg (by decide), if_pos (show str ".." = [46, 46] from rfl)]
  rfl

/-- For a path that `ValidPath` accepts. -/
theorem staysBelow_fromDir_iff {last path : Bytes} (hv : validPath path = true) :
    staysBelow 0 (fromDir last (components path)) = true ↔ PathFits last path := by
  have hv := (validPath_iff path).mp hv
  have hpaid : staysBelow 0 (components path) = true ↔ DotsPaid 0 (components path) :=
    staysBelow_iff_dotsPaid fun k hk e => by
      have := hv k hk e
      omega
  obtain ⟨c, cs, e⟩ := List.exists_cons_of_ne_nil (components_ne_nil path)
  have hc : last = [] ∨ c = [] ↔ last = [] ∨ path = [] ∨ path.head? = some 47 :=
    or_congr_right (head_components_eq_nil e)
  rw [PathFits, ← if_congr hc rfl rfl]
  rw [e] at hpaid hv ⊢
  rw [fromDir]
  by_cases hs : last = [] ∨ c = []
  · rw [if_pos hs, if_pos hs]
    exact hpaid
  · obtain ⟨hl, h0⟩ := not_or.mp hs
    obtain ⟨hp, hv⟩ := (beforeParents_cons _ c cs).mp hv
    have hp : c ≠ str ".." := fun e => absurd (hp e) (by decide)
    rw [if_neg hs, if_neg hs]
    by_cases h₁ : last = str "."
    · subst h₁
      rw [if_pos (show str "." = [46] from rfl), if_pos rfl]
      by_cases h1 : c = str "."
      · rw [h1]
        refine iff_of_false ?_ fun h => h.1 rfl
        rw [show str "." ++ str "." = str ".." from rfl, staysBelow_parent]
        exact Bool.false_ne_true
      · have hc : ¬ Stays c ∧ c ≠ [46, 46] := ⟨fun hs => hs.elim h0 h1, hp⟩
        have hh : (c :: cs).head? ≠ some (str ".") := fun e => h1 (Option.some.inj e)
        rw [staysBelow_down (dot_append_ordinary h0 h1), ← staysBelow_down hc, hpaid, and_iff_right hh]
    · rw [if_neg (show last ≠ [46] from h₁), if_neg h₁]
      by_cases h₂ : last = str ".."
      · subst h₂
        rw [if_pos (show str ".." = [46, 46] from rfl), if_pos rfl, staysBelow_down (by decide),
          staysBelow_down (append_ordinary hl h0 h₁)]
        refine staysBelow_iff_dotsPaid fun k hk e => ?_
        have h : 0 < level (c :: cs.take k) := hv k hk e
        rw [level_down_cons h0 hp] at h
        show 0 < ((2 : Nat) : Int) + level (cs.take k)
        omega
      · rw [if_neg (show last ≠ [46, 46] from h₂), if_neg h₂]
        exact iff_of_false (fun h => Bool.false_ne_true ((staysBelow_parent _).symm.trans h)) id

/-- An accepted path never leaves the base directory if and only if that is
the root, or what `ValidPath` misses does no harm. -/
theorem confined_iff (srv : HttpServer) (t : Nat) (req : HttpRequest) (cwd : Dir)
    (h : srv.isFileHandler t req = true) :
    Confined cwd srv.baseDir (srv.reqPath req.path) ↔
      resolve cwd srv.baseDir = [] ∨ PathFits srv.baseName req.path :=
  (confined_reqPath cwd (baseDir_ne_nil h) req.path).trans
    (or_congr_right (staysBelow_fromDir_iff (validPath_of_isFileHandler h)))

/-- A server whose base directory is `./wwwroot`, where every file is there. -/
def wwwroot : HttpServer := { noRoutes with baseDir := str "./wwwroot", isRegular := fun _ _ => true }

def getPath (path : String) : HttpRequest := { HttpRequest.new with method := str "GET", path := str path }

theorem confined_iff_parent :
    Confined [str "srv"] wwwroot.baseDir (wwwroot.reqPath (getPath "/a/./../b").path) :=
  (confined_iff wwwroot 0 (getPath "/a/./../b") [str "srv"] rfl).mpr (.inr (by unfold PathFits; decide))

/-- The component `.` counts as a level that `..` may leave. -/
theorem dotPath_leaves : ¬ ∀ (srv : HttpServer) (t : Nat) (req : HttpRequest) (cwd : Dir),
    srv.isFileHandler t req = true → Confined cwd srv.baseDir (srv.reqPath req.path) := by
  intro h
  have h := h wwwroot 0 (getPath "/./../secret") [str "srv"] rfl
    (components (str "./wwwroot/./../secret")) (List.prefix_refl _) (by decide)
  have he : (components (str "./wwwroot/./../secret")).foldl walk
      (start [str "srv"] (wwwroot.reqPath (getPath "/./../secret").path)) = [str "srv", str "secret"] := rfl
  have hb : resolve [str "srv"] wwwroot.baseDir = [str "srv", str "wwwroot"] := rfl
  rw [he, hb] at h
  revert h
  decide

end HttpServer

end Mudou
