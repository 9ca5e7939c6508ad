import Mathlib.Data.List.TakeWhile
import Minix.Fs.Path

/-!
# The components of a path

`components` are the parts of a path between its slashes. `get_name` gives the first one and leaves
a path of the others (`getName_components`), so that `last_dir` goes through the components in order
(`lastDir_walks`), and what `eat_path` does depends on the components and on whether the path is
absolute (`eatPath_components`).
-/

namespace Minix.Fs

/-- The parts of a path between slashes that are not empty. -/
def components (path : List UInt8) : List (List UInt8) := (path.splitOn slash).filter (· ≠ [])

/-- A component as a directory has it: its first characters, padded with zeros. -/
def componentName (component : List UInt8) : Name := padded (component.take NAME_MAX)

/-- The names that a path goes through. -/
def pathNames (path : List UInt8) : List Name := (components path).map componentName

/-- The string for no component. -/
def emptyName : Name := fun _ => 0

/-- Names that are looked up in order lead from a directory to a directory, which is the only one
that is held in the end. -/
inductive Walks (fp : Caller) : Names → InodePtr → List Name → InodePtr → Names → Prop
  | nil {s : Names} {rip : InodePtr} : Walks fp s rip [] rip s
  | cons {s s₁ s' : Names} {rip new_ip dirp : InodePtr} {name : Name} {names : List Name} :
      advance fp mountFuel s (some rip) name = some (some new_ip, s₁) →
      Walks fp (putInode s₁ (some rip)) new_ip names dirp s' →
      Walks fp s rip (name :: names) dirp s'

/-! ## Splitting -/

section Splitting

variable {path a b c : List UInt8}

theorem padded_take : componentName c = padded c := by
  funext j
  show ((c.take NAME_MAX)[j.val]?).getD 0 = _
  rw [List.getElem?_take_of_lt j.isLt]
  rfl

@[simp]
theorem components_nil : components [] = [] := rfl

/-- A slash separates components. -/
theorem components_append_slash : components (a ++ slash :: b) = components a ++ components b := by
  unfold components
  rw [List.splitOn_eq_splitOnP, List.splitOnP_append_cons a b (by simp), List.filter_append]
  rfl

@[simp]
theorem components_slash : components (slash :: b) = components b := by
  have h := components_append_slash (a := []) (b := b)
  rwa [components_nil, List.nil_append, List.nil_append] at h

/-- A word without slashes is one component. -/
theorem components_word (hc : c ≠ []) (hw : slash ∉ c) : components c = [c] := by
  unfold components
  rw [List.splitOn_eq_singleton hw]
  simp [hc]

theorem components_dropWhile : components (path.dropWhile (· = slash)) = components path := by
  induction path with
  | nil => rfl
  | cons ch path ih =>
    by_cases hch : ch = slash
    · rw [List.dropWhile_cons_of_pos (by simp [hch]), ih, hch, components_slash]
    · rw [List.dropWhile_cons_of_neg (by simp [hch])]

/-- Extra slashes beside a slash or at the end leave the components as they are. -/
theorem components_replicate {n : ℕ}
    (hab : b = [] ∨ b.head? = some slash ∨ a.getLast? = some slash) :
    components (a ++ List.replicate n slash ++ b) = components (a ++ b) := by
  induction n with
  | zero => simp
  | succ n ih =>
    rw [← ih, List.replicate_succ', List.append_assoc a, List.append_assoc, List.singleton_append,
      ← List.append_assoc a, components_append_slash]
    obtain rfl | hb | ha := hab
    · simp
    · obtain ⟨b, rfl⟩ : ∃ b', b = slash :: b' := by
        cases b with
        | nil => cases hb
        | cons ch b =>
          injection hb with hb
          exact ⟨b, by rw [hb]⟩
      rw [components_slash, components_append_slash]
    · obtain ⟨a', rfl⟩ : ∃ a', a = a' ++ [slash] := by
        obtain ⟨a', ha'⟩ := List.getLast?_eq_some_iff.mp ha
        exact ⟨a', ha'⟩
      cases n with
      | zero => simp [components_append_slash]
      | succ n =>
        rw [List.replicate_succ', ← List.append_assoc, List.append_assoc _ [slash] b,
          List.singleton_append, components_append_slash, components_append_slash]
        simp

/-- What is behind the slashes of a path does not begin with a slash. -/
theorem head_dropSlashes : (path.dropWhile (· = slash)).head? ≠ some slash := by
  intro h
  have hnot := List.head?_dropWhile_not (· = slash) path
  rw [h] at hnot
  simp at hnot

/-- The first component. -/
theorem firstComponent_ne_nil (h : path.dropWhile (· = slash) ≠ []) :
    (path.dropWhile (· = slash)).takeWhile (· ≠ slash) ≠ [] := by
  have hhead := @head_dropSlashes path
  cases hstart : path.dropWhile (· = slash) with
  | nil => exact absurd hstart h
  | cons ch start =>
    rw [hstart] at hhead
    rw [List.takeWhile_cons_of_pos (by simpa using hhead)]
    exact List.cons_ne_nil _ _

/-- A path has a first component if something other than slashes is in it. -/
theorem components_cons (h : path.dropWhile (· = slash) ≠ []) :
    components path = (path.dropWhile (· = slash)).takeWhile (· ≠ slash) ::
      components ((path.dropWhile (· = slash)).dropWhile (· ≠ slash)) := by
  have hne := firstComponent_ne_nil h
  rw [← components_dropWhile]
  generalize path.dropWhile (· = slash) = start at hne ⊢
  have hword : slash ∉ start.takeWhile (· ≠ slash) := by
    intro hmem
    exact absurd (List.mem_takeWhile_imp hmem) (by simp)
  conv_lhs => rw [← List.takeWhile_append_dropWhile (p := (· ≠ slash)) (l := start)]
  cases hrest : start.dropWhile (· ≠ slash) with
  | nil => rw [List.append_nil, components_word hne hword, components_nil]
  | cons ch rest =>
    have hslash : ch = slash := by
      have hnot := List.head?_dropWhile_not (· ≠ slash) start
      rw [hrest] at hnot
      simpa using hnot
    rw [hslash, components_append_slash, components_word hne hword, components_slash]
    rfl

/-- A path has no component only if there are no characters left behind its slashes. -/
theorem components_eq_nil (hhead : path.head? ≠ some slash) : components path = [] ↔ path = [] := by
  constructor
  · intro h
    by_contra hne
    have hdrop : path.dropWhile (· = slash) = path := by
      cases path with
      | nil => rfl
      | cons ch path =>
        rw [List.dropWhile_cons_of_neg]
        simpa using hhead
    rw [components_cons (by rwa [hdrop])] at h
    cases h
  · rintro rfl
    rfl

/-- A path of slashes has no components. -/
theorem components_of_slashes (h : path.dropWhile (· = slash) = []) : components path = [] := by
  rw [← components_dropWhile, h, components_nil]

/-- What `get_name` leaves of a path. -/
def restOf (path : List UInt8) : List UInt8 :=
  ((path.dropWhile (· = slash)).dropWhile (· ≠ slash)).dropWhile (· = slash)

theorem components_restOf : components (restOf path) = (components path).tail := by
  unfold restOf
  rw [components_dropWhile]
  by_cases h : path.dropWhile (· = slash) = []
  · rw [h, components_of_slashes h]
    rfl
  · rw [components_cons h]
    rfl

theorem restOf_eq_nil : restOf path = [] ↔ (components path).tail = [] := by
  rw [← components_restOf]
  exact (components_eq_nil head_dropSlashes).symm

theorem length_restOf_le : (restOf path).length ≤ path.length :=
  ((List.dropWhile_sublist _).trans
    ((List.dropWhile_sublist _).trans (List.dropWhile_sublist _))).length_le

/-- `get_name` gives the first component of a path that is not too long, and a path of the others.
-/
theorem getName_eq (hlen : path.length < PATH_MAX) :
    getName path = (some (restOf path), padded ((components path).headD [])) := by
  have hstart : (path.dropWhile (· = slash)).length ≤ path.length :=
    (List.dropWhile_sublist _).length_le
  have hword : ((path.dropWhile (· = slash)).takeWhile (· ≠ slash)).length ≤
      (path.dropWhile (· = slash)).length := (List.takeWhile_sublist _).length_le
  have htake : ((path.dropWhile (· = slash)).takeWhile (· ≠ slash)).take
      (PATH_MAX - (path.length - (path.dropWhile (· = slash)).length)) =
      (components path).headD [] := by
    rw [List.take_of_length_le (by omega)]
    by_cases h : path.dropWhile (· = slash) = []
    · rw [h, components_of_slashes h]
      rfl
    · rw [components_cons h]
      rfl
  have hroom : ¬ path.length - (restOf path).length ≥ PATH_MAX := by omega
  unfold getName
  dsimp only
  rw [htake]
  exact congrArg (·, _) (if_neg hroom)

end Splitting

/-! ## Walking -/

/-- The last directory of a list of names, with the last name or the one that is not found. -/
def descend (fp : Caller) : Names → InodePtr → List Name → Option (Option InodePtr × Name × Names)
  | s, rip, [] => some (some rip, emptyName, s)
  | s, rip, [name] => some (some rip, name, s)
  | s, rip, name :: names => do
    let (new_ip, s) ← advance fp mountFuel s (some rip) name
    let s := putInode s (some rip)
    match new_ip with
    | none => some (none, name, s)
    | some new_ip => descend fp s new_ip names

section Walking

variable {s s' : Names} {rip dirp : InodePtr} {fp : Caller} {path user_path : List UInt8}

/-- `last_dir` goes through the components of a path. -/
theorem scanPath_eq {fuel : ℕ} (hlen : path.length < PATH_MAX)
    (hfuel : (components path).length < fuel) :
    scanPath fp user_path fuel s rip path =
      (descend fp s rip (pathNames path)).map fun (r, string, s) => ⟨r, string, user_path, s⟩ := by
  induction fuel generalizing s rip path with
  | zero => exact absurd hfuel (Nat.not_lt_zero _)
  | succ fuel ih =>
    unfold scanPath
    rw [getName_eq hlen]
    dsimp only
    have hnames : pathNames (restOf path) = (pathNames path).tail := by
      unfold pathNames
      rw [components_restOf, List.map_tail]
    cases hc : components path with
    | nil =>
      rw [if_pos (by rw [restOf_eq_nil, hc]; rfl)]
      unfold pathNames
      rw [hc]
      rfl
    | cons c cs =>
      cases cs with
      | nil =>
        rw [if_pos (by rw [restOf_eq_nil, hc]; rfl)]
        unfold pathNames
        rw [hc, List.map_singleton, padded_take]
        rfl
      | cons c' cs =>
        have hne : restOf path ≠ [] := by
          rw [ne_eq, restOf_eq_nil, hc]
          exact List.cons_ne_nil _ _
        have hpath : pathNames path = componentName c :: componentName c' ::
            cs.map componentName := by
          unfold pathNames
          rw [hc]
          rfl
        rw [if_neg hne, hpath, List.headD_cons, ← padded_take]
        unfold descend
        cases advance fp mountFuel s (some rip) (componentName c) with
        | none => rfl
        | some r =>
          obtain ⟨new_ip, s₁⟩ := r
          cases new_ip with
          | none => rfl
          | some new_ip =>
            have hrest : (components (restOf path)).length < fuel := by
              rw [hc] at hfuel
              rw [components_restOf, hc]
              exact Nat.lt_of_succ_lt_succ hfuel
            show scanPath fp user_path fuel _ new_ip (restOf path) = _
            rw [ih (length_restOf_le.trans_lt hlen) hrest, hnames, hpath]
            rfl

theorem length_components_le : (components path).length ≤ path.length := by
  induction hn : path.length using Nat.strong_induction_on generalizing path with
  | _ n ih =>
    by_cases h : path.dropWhile (· = slash) = []
    · rw [components_of_slashes h]
      exact Nat.zero_le _
    · have hlt : ((path.dropWhile (· = slash)).dropWhile (· ≠ slash)).length < n := by
        have hle := (List.dropWhile_sublist (l := path) (· = slash)).length_le
        have hpos := List.length_pos_iff.mpr (firstComponent_ne_nil h)
        have hsum := congrArg List.length (@List.takeWhile_append_dropWhile _ (· ≠ slash)
          (path.dropWhile (· = slash)))
        rw [List.length_append] at hsum
        omega
      rw [components_cons h, List.length_cons]
      exact (ih _ hlt rfl).trans_lt hlt

/-- The directories of a walk are what `last_dir` goes through. -/
theorem Walks.descend {names : List Name} (h : Walks fp s rip names.dropLast dirp s') :
    Fs.descend fp s rip names = some (some dirp, names.getLast?.getD emptyName, s') := by
  induction names generalizing s rip with
  | nil =>
    cases h
    rfl
  | cons name names ih =>
    cases names with
    | nil =>
      cases h
      rfl
    | cons name' names =>
      rw [List.dropLast_cons_of_ne_nil (List.cons_ne_nil _ _)] at h
      cases h with
      | cons hadvance hrest =>
        unfold Fs.descend
        rw [hadvance]
        show Fs.descend fp _ _ (name' :: names) = _
        rw [ih hrest, List.getLast?_cons_cons]

/-- The directory that a path starts at. -/
def startDir (fp : Fproc) (path : List UInt8) : Option InodePtr :=
  if path.head? = some slash then fp.fp_rootdir else fp.fp_workdir

variable {fp : Fproc} {string : Name}

theorem lastDir_none (hstart : startDir fp path = none) :
    lastDir s fp .other path string = none := by
  unfold startDir at hstart
  unfold lastDir
  by_cases hhead : path.head? = some slash
  · rw [if_pos hhead] at hstart
    simp only [if_pos hhead, hstart]
    rfl
  · rw [if_neg hhead] at hstart
    simp only [if_neg hhead, hstart]
    rfl

theorem lastDir_start (hstart : startDir fp path = some rip) :
    lastDir s fp .other path string =
      if (s.inode rip).i_nlinks = 0 ∨ path = [] then
        some ⟨none, string, path, { s with err_code := ENOENT }⟩
      else scanPath fp.caller path (path.length + 1) (dupInode s rip) rip path := by
  unfold startDir at hstart
  unfold lastDir
  by_cases hhead : path.head? = some slash
  · rw [if_pos hhead] at hstart
    simp only [if_pos hhead, hstart]
    rfl
  · rw [if_neg hhead] at hstart
    simp only [if_neg hhead, hstart]
    rfl

/-- `last_dir` goes through the components of a path, from the directory where the path starts. -/
theorem lastDir_eq (hlen : path.length < PATH_MAX) (hne : path ≠ [])
    (hstart : startDir fp path = some rip) (hlinks : (s.inode rip).i_nlinks ≠ 0) :
    lastDir s fp .other path string =
      (descend fp.caller (dupInode s rip) rip (pathNames path)).map
        fun (r, string, s) => ⟨r, string, path, s⟩ := by
  rw [lastDir_start hstart, if_neg (not_or.mpr ⟨hlinks, hne⟩)]
  exact scanPath_eq hlen (Nat.lt_succ_of_le length_components_le)

/-- Two paths that start at the same directory and have the same components are the same to
`eat_path`. -/
theorem eatPath_components {path' : List UInt8} (hlen : path.length < PATH_MAX)
    (hlen' : path'.length < PATH_MAX) (hne : path ≠ []) (hne' : path' ≠ [])
    (hstart : startDir fp path = startDir fp path') (hc : components path = components path') :
    eatPath s fp .other path = eatPath s fp .other path' := by
  have hnames : pathNames path = pathNames path' := congrArg (List.map componentName) hc
  unfold eatPath
  cases hdir : startDir fp path with
  | none => rw [lastDir_none hdir, lastDir_none (hstart.symm.trans hdir)]
  | some rip =>
    have hdir' := hstart.symm.trans hdir
    by_cases hlinks : (s.inode rip).i_nlinks = 0
    · rw [lastDir_start hdir, lastDir_start hdir', if_pos (.inl hlinks), if_pos (.inl hlinks)]
      rfl
    · rw [lastDir_eq hlen hne hdir hlinks, lastDir_eq hlen' hne' hdir' hlinks, hnames]
      cases descend fp.caller (dupInode s rip) rip (pathNames path') with
      | none => rfl
      | some r => rfl

/-- Extra slashes leave the directory where a path starts. -/
theorem startDir_replicate {a b : List UInt8} {n : ℕ} (hne : a ++ b ≠ [])
    (hab : b = [] ∨ b.head? = some slash ∨ a.getLast? = some slash) :
    startDir fp (a ++ List.replicate n slash ++ b) = startDir fp (a ++ b) := by
  unfold startDir
  cases a with
  | cons ch a => rfl
  | nil =>
    obtain rfl | hb | ha := hab
    · exact absurd rfl hne
    · cases n with
      | zero => rfl
      | succ n =>
        rw [List.nil_append, List.nil_append, hb]
        rfl
    · cases ha

/-- A path that is not empty, from a directory that has not been removed: `last_dir` visits its
components in order, and gives the directory of all but the last with the last one. Extra slashes
between components or at the end are the same to `eat_path`. -/
theorem path_parsing (hlen : path.length < PATH_MAX) (hne : path ≠ [])
    (hstart : startDir fp path = some rip) (hlinks : (s.inode rip).i_nlinks ≠ 0) :
    (∀ dirp s', Walks fp.caller (dupInode s rip) rip (pathNames path).dropLast dirp s' →
      lastDir s fp .other path string =
        some ⟨some dirp, (pathNames path).getLast?.getD emptyName, path, s'⟩) ∧
    ∀ a b n, path = a ++ b → (b = [] ∨ b.head? = some slash ∨ a.getLast? = some slash) →
      (a ++ List.replicate n slash ++ b).length < PATH_MAX →
      eatPath s fp .other (a ++ List.replicate n slash ++ b) = eatPath s fp .other path := by
  constructor
  · intro dirp s' hwalk
    rw [lastDir_eq hlen hne hstart hlinks, hwalk.descend]
    rfl
  · rintro a b n rfl hab hlen'
    have hne' : a ++ List.replicate n slash ++ b ≠ [] := by
      intro h
      rw [List.append_eq_nil_iff, List.append_eq_nil_iff] at h
      exact hne (by rw [h.1.1, h.2, List.nil_append])
    exact eatPath_components hlen' hlen hne' hne (startDir_replicate hne hab)
      (components_replicate hab)

end Walking

/-- The root directory has a directory `u`, which has a file `f`. -/
def usrTree : Names where
  inode rip :=
    if rip.val = 0 then ⟨⟨I_DIRECTORY ||| 0o777, 0, 0, 16, 3⟩, 1, 1, 2, false, false, false⟩
    else ⟨⟨0, 0, 0, 0, 0⟩, 0, 0, 0, false, false, false⟩
  super_block sp := if sp.val = 0 then ⟨1, false, some ⟨0, NR_INODES_pos⟩⟩ else ⟨0, false, none⟩
  fproc _ := ⟨⟨SU_UID, SU_UID, 0, 0⟩, none, none⟩
  err_code := OK
  disk _ numb :=
    if numb = 2 then ⟨I_DIRECTORY ||| 0o755, 0, 0, 16, 2⟩ else ⟨I_REGULAR ||| 0o644, 0, 0, 0, 1⟩
  imap _ _ := true
  dirs _ numb _ := if numb = 1 then ⟨2, padded [117]⟩ else ⟨3, padded [102]⟩
  room _ := true

/-- A process that works in the root directory. -/
def rootProc : Fproc := ⟨⟨SU_UID, SU_UID, 0, 0⟩, some ⟨0, NR_INODES_pos⟩, some ⟨0, NR_INODES_pos⟩⟩

/-- `u//f/` is parsed as far as `u`, and `u//f//` is the same file. -/
theorem path_parsing_slashes :
    (∃ dirp s', lastDir usrTree rootProc .other [117, slash, slash, 102, slash] emptyName =
      some ⟨some dirp, padded [102], [117, slash, slash, 102, slash], s'⟩) ∧
    eatPath usrTree rootProc .other [117, slash, slash, 102, slash, slash] =
      eatPath usrTree rootProc .other [117, slash, slash, 102, slash] := by
  obtain ⟨hlast, heat⟩ := @path_parsing usrTree ⟨0, by decide⟩ [117, slash, slash, 102, slash]
    rootProc emptyName (by decide) (by decide) rfl (by decide)
  have hc : components [117, slash, slash, 102, slash] = [[117], [102]] := by decide
  have hnames : pathNames [117, slash, slash, 102, slash] = [padded [117], padded [102]] := by
    unfold pathNames
    rw [hc, List.map_cons, List.map_singleton, padded_take, padded_take]
  rw [hnames] at hlast
  refine ⟨?_, heat [117, slash, slash, 102, slash] [] 1 rfl (.inl rfl) (by decide)⟩
  have hstep : ((advance rootProc.caller mountFuel (dupInode usrTree ⟨0, by decide⟩)
      (some ⟨0, by decide⟩) (padded [117])).map Prod.fst) = some (some ⟨31, by decide⟩) := by
    decide +kernel
  obtain ⟨⟨new_ip, s₁⟩, hadvance, hip⟩ := Option.map_eq_some_iff.mp hstep
  obtain rfl : new_ip = some _ := hip
  exact ⟨_, _, hlast _ _ (.cons hadvance .nil)⟩

/-- `last_dir` gives no directory for the empty path. -/
theorem path_parsing_empty :
    ¬ ∀ s fp path string rip, path.length < PATH_MAX → startDir fp path = some rip →
      ∀ dirp s', Walks fp.caller (dupInode s rip) rip (pathNames path).dropLast dirp s' →
      lastDir s fp .other path string =
        some ⟨some dirp, (pathNames path).getLast?.getD emptyName, path, s'⟩ := by
  intro h
  have hdir := h usrTree rootProc [] emptyName ⟨0, by decide⟩ (by decide) rfl _ _ .nil
  rw [lastDir_start rfl, if_pos (.inr rfl)] at hdir
  injection hdir with hdir
  injection hdir with hrip
  cases hrip

end Minix.Fs
