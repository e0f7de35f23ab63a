import Xv6.Fs.Resolve

namespace Xv6.Fs

open Lib Prog

def components (path : Str) : List Str := ((path.splitOnP (· == slash)).filter (· ≠ [])).map (List.take dirsiz)

section components

theorem components_slash : components (slash :: l) = components l := by
  rw [components, List.splitOnP_cons_eq_if_modifyHead, if_pos (beq_self_eq_true slash)]
  rfl

theorem components_dropWhile : components (l.dropWhile (· == slash)) = components l := by
  induction l with
  | nil => rfl
  | cons a l ih =>
    rw [List.dropWhile_cons]
    split
    · next ha =>
      obtain rfl : a = slash := by simpa using ha
      rw [ih, components_slash]
    · rfl

variable (hw : ∀ x ∈ w, (x == slash) = false) (hne : w ≠ [])

include hw hne

theorem components_word : components w = [w.take dirsiz] := by
  rw [components, List.splitOnP_eq_singleton hw]
  simp [hne]

theorem components_word_slash : components (w ++ slash :: l) = w.take dirsiz :: components l := by
  rw [components, List.splitOnP_append_cons_of_forall_mem hw slash (beq_self_eq_true slash)]
  simp [hne, components]

end components

theorem components_cons (ha : (a == slash) = false) :
    components (a :: l) =
      ((a :: l).takeWhile (· != slash)).take dirsiz :: components ((a :: l).dropWhile (· != slash)) := by
  have hword : ∀ x ∈ (a :: l).takeWhile (· != slash), (x == slash) = false := fun x hx => by
    simpa using List.mem_takeWhile_imp hx
  have hne : (a :: l).takeWhile (· != slash) ≠ [] := by
    rw [List.takeWhile_cons, if_pos (by rw [bne, ha]; rfl)]
    exact List.cons_ne_nil _ _
  have hsplit : (a :: l).takeWhile (· != slash) ++ (a :: l).dropWhile (· != slash) = a :: l :=
    List.takeWhile_append_dropWhile
  cases hrest : (a :: l).dropWhile (· != slash) with
  | nil =>
    rw [hrest, List.append_nil] at hsplit
    rw [hsplit] at hword hne ⊢
    exact components_word hword hne
  | cons b l' =>
    obtain rfl : b = slash := by
      have hhead := List.head?_dropWhile_not (· != slash) (a :: l)
      rw [hrest] at hhead
      simpa using hhead
    rw [hrest] at hsplit
    rw [components_slash, ← components_word_slash hword hne, hsplit]

theorem elems_eq_components (path : Str) : elems path = components path := by
  induction hlen : path.length using Nat.strong_induction_on generalizing path with
  | _ m ih =>
    subst hlen
    rw [elems_eq]
    cases hskip : skipelem path with
    | none =>
      simp only [skipelem] at hskip
      split at hskip
      · next hnil =>
        rw [← components_dropWhile, hnil]
        rfl
      · cases hskip
    | some p =>
      obtain ⟨name, rest⟩ := p
      have hrest := ih _ (length_of_skipelem hskip) rest rfl
      dsimp only
      rw [hrest]
      simp only [skipelem] at hskip
      split at hskip
      · cases hskip
      next hne =>
      cases hskip
      obtain ⟨a, l, hs⟩ := List.exists_cons_of_ne_nil hne
      rw [components_dropWhile, ← components_dropWhile (l := path), hs, components_cons (head_dropWhile_slash hs)]

variable {n : Nat} [NeZero n]

namespace Store

variable (v : Store n)

def follow (i : Fin n) (names : List Str) : Option (Fin n) := names.foldlM v.lookup i

def above (i : Fin n) (names : List Str) : Option (Fin n × Str) :=
  names.getLast?.bind fun name =>
    (v.follow i names.dropLast).bind fun dp => if (v.node dp).isDir then some (dp, name) else none

/-- The caller has locked none of the inodes on the way in which a name is looked up, and the
inode cache has an entry for each inode, while the directory before it has one. -/
def Passable : Fin n → List Str → Prop
  | _, [] => True
  | i, name :: rest =>
    v.locked i = false ∧ ∀ j, v.lookup i name = some j → (v.addRef i 1).HasSlot j ∧ Passable j rest

structure PassablePath (cwd : Fin n) (path : Str) : Prop where
  root : isAbsolute path → v.HasSlot rootino
  unlocked : components path = [] → v.locked (start cwd path) = false
  way : v.Passable (start cwd path) (components path)

structure Rooted (cwd : Fin n) : Prop where
  root : v.node rootino ≠ .free
  cwd : v.node cwd ≠ .free
  entry : ∀ i name j, v.lookup i name = some j → v.node j ≠ .free

end Store

variable {i j : Fin n} {v : Store n} {names : List Str} {cwd : Fin n} {path : Str} {s : State n}

theorem follow_cons (name : Str) : v.follow i (name :: names) = (v.lookup i name).bind fun j => v.follow j names := by
  rw [Store.follow, List.foldlM_cons]
  rfl

theorem above_cons (name : Str) (hne : names ≠ []) :
    v.above i (name :: names) = (v.lookup i name).bind fun j => v.above j names := by
  obtain ⟨a, l, rfl⟩ := List.exists_cons_of_ne_nil hne
  rw [Store.above, List.getLast?_cons_cons, List.dropLast_cons_cons, follow_cons]
  cases v.lookup i name with
  | none => cases (a :: l).getLast? <;> rfl
  | some j => rfl

theorem follow_concat (name : Str) :
    v.follow i (names ++ [name]) = (v.follow i names).bind fun j => v.lookup j name := by
  rw [Store.follow, List.foldlM_append]
  simp only [List.foldlM_cons, List.foldlM_nil, bind_pure]
  rfl

theorem follow_eq_lookup (h : v.above i names = some (dp, name)) :
    v.follow i names = v.lookup dp name := by
  obtain ⟨last, hlast, h⟩ := Option.bind_eq_some_iff.mp h
  obtain ⟨j, hj, h⟩ := Option.bind_eq_some_iff.mp h
  split at h
  · cases h
    rw [← List.dropLast_append_getLast? name hlast, follow_concat, hj]
    rfl
  · cases h

theorem lookup_of_not_dir (h : (v.node i).isDir = false) : v.lookup i name = none := by
  cases hlook : v.lookup i name with
  | none => rfl
  | some j =>
    rw [isDir_of_lookup hlook] at h
    cases h

section walks

variable (hentry : ∀ i name j, v.lookup i name = some j → v.node j ≠ .free)

include hentry

theorem walk_eq_follow (hi : v.node i ≠ .free) (hway : v.Passable i names) :
    v.walk false i names = .ok ((v.follow i names).map fun j => (j, [])) := by
  induction names generalizing i with
  | nil => rfl
  | cons name rest ih =>
    obtain ⟨hlock, hnext⟩ := hway
    rw [Store.walk, if_neg (by simp [hlock]), if_neg hi, follow_cons]
    by_cases hdir : (v.node i).isDir = false
    · rw [if_pos hdir, lookup_of_not_dir hdir]
      rfl
    rw [if_neg hdir, if_neg (by simp)]
    cases hlook : v.lookup i name with
    | none => rfl
    | some j =>
      obtain ⟨hslot, hrest⟩ := hnext j hlook
      dsimp only
      rw [if_pos hslot, ih (hentry i name j hlook) hrest]
      rfl

theorem walk_eq_above (hi : v.node i ≠ .free) (hlock : names = [] → v.locked i = false) (hway : v.Passable i names) :
    v.walk true i names = .ok (v.above i names) := by
  induction names generalizing i with
  | nil =>
    rw [Store.walk, if_pos rfl, if_neg (by simp [hlock rfl])]
    rfl
  | cons name rest ih =>
    obtain ⟨hlock, hnext⟩ := hway
    rw [Store.walk, if_neg (by simp [hlock]), if_neg hi]
    by_cases hrest : rest = []
    · rw [hrest]
      by_cases hdir : (v.node i).isDir
      · rw [if_neg (by simp [hdir]), if_pos ⟨rfl, rfl⟩]
        simp [Store.above, Store.follow, hdir]
      · rw [if_pos (by simpa using hdir)]
        simp [Store.above, Store.follow, hdir]
    rw [above_cons name hrest]
    by_cases hdir : (v.node i).isDir = false
    · rw [if_pos hdir, lookup_of_not_dir hdir]
      rfl
    rw [if_neg hdir, if_neg fun hlast => hrest hlast.2]
    cases hlook : v.lookup i name with
    | none => rfl
    | some j =>
      obtain ⟨hslot, hway⟩ := hnext j hlook
      dsimp only
      rw [if_pos hslot, ih (hentry i name j hlook) (fun hnil => absurd hnil hrest) hway]
      rfl

end walks

theorem passable_of_walk (h : v.walk false i names = .ok r) : v.Passable i names := by
  induction names generalizing i with
  | nil => trivial
  | cons name rest ih =>
    rw [Store.walk] at h
    split at h
    · cases h
    next hlock =>
    refine ⟨by simpa using hlock, fun j hlook => ?_⟩
    have hdir := isDir_of_lookup hlook
    rw [if_neg (ne_free_of_isDir hdir), if_neg (by simp [hdir]), if_neg (by simp), hlook] at h
    dsimp only at h
    split at h
    · next hslot => exact ⟨hslot, ih h⟩
    · cases h

structure PathsRight (s : State n) (cwd : Fin n) (path : Str) : Prop where
  namei : ∃ t, namei cwd path s = .ok (s.follow (Store.start cwd path) (components path), t)
  nameiparent : ∃ t, nameiparent cwd path s = .ok (s.above (Store.start cwd path) (components path), t)
  last : ∀ dp name, s.above (Store.start cwd path) (components path) = some (dp, name) →
    s.follow (Store.start cwd path) (components path) = s.lookup dp name

omit [NeZero n] in
theorem exists_ok_of_ends (h : Ends x s (.ok (a, w))) :
    ∃ t, x s = .ok (a, t) := by
  cases h with
  | ok hx _ _ => exact ⟨_, hx⟩

theorem namex_resolves_iff (hs : Sound s) (hcwd : 0 < s.ref cwd) (hrooted : s.Rooted cwd) :
    PathsRight s cwd path ↔ s.PassablePath cwd path := by
  have hstart : s.node (Store.start cwd path) ≠ .free := by
    unfold Store.start
    split
    · exact hrooted.root
    · exact hrooted.cwd
  have hnamei : Ends (namei cwd path) s _ := namei_ends hs rfl hcwd
  have hparent : Ends (nameiparent cwd path) s _ := namex_ends hs rfl hcwd
  constructor
  · intro hright
    obtain ⟨t, ht⟩ := hright.namei
    obtain ⟨u, hu⟩ := hright.nameiparent
    obtain ⟨hr, -⟩ := hnamei.eq_ok ht
    obtain ⟨hq, -⟩ := hparent.eq_ok hu
    cases hwalk : s.walkPath cwd path false with
    | error e =>
      rw [hwalk] at hr
      cases hr
    | ok r =>
      have hway := passable_of_walk (walk_of_walkPath hwalk)
      rw [elems_eq_components] at hway
      refine ⟨fun habs => by_contra fun hslot => ?_, fun hnil => ?_, hway⟩
      · rw [Store.walkPath, if_pos ⟨habs, hslot⟩] at hwalk
        cases hwalk
      · cases hwalk' : s.walkPath cwd path true with
        | error e =>
          rw [hwalk'] at hq
          cases hq
        | ok q =>
          have hend := walk_of_walkPath hwalk'
          rw [elems_eq_components, hnil, Store.walk, if_pos rfl] at hend
          split at hend
          · cases hend
          · next hlock => simpa using hlock
  · intro hpass
    have hpath : ¬(isAbsolute path ∧ ¬s.HasSlot rootino) := fun h => h.2 (hpass.root h.1)
    have hfollow := walk_eq_follow hrooted.entry hstart hpass.way
    have habove := walk_eq_above hrooted.entry hstart hpass.unlocked hpass.way
    rw [← elems_eq_components, ← walkPath_eq hpath] at hfollow habove
    rw [hfollow] at hnamei
    rw [habove] at hparent
    refine ⟨?_, ?_, fun dp name => follow_eq_lookup⟩
    · obtain ⟨t, ht⟩ := exists_ok_of_ends hnamei
      refine ⟨t, ht.trans ?_⟩
      rw [elems_eq_components, Option.map_map]
      cases s.follow (Store.start cwd path) (components path) <;> rfl
    · obtain ⟨t, ht⟩ := exists_ok_of_ends hparent
      refine ⟨t, ht.trans ?_⟩
      rw [elems_eq_components]

def crowded (k : Nat) : State 52 where
  node := fun i => if i = 0 then .free else if i = 1 then .dir [⟨51, [102]⟩] else .file []
  nlink := fun _ => 1
  freeBlocks := 0
  ref := fun i => if 1 ≤ i.val ∧ i.val ≤ k then 1 else 0
  locked := fun _ => false
  valid := fun i => 1 ≤ i.val ∧ i.val ≤ k

theorem node_crowded (k : Nat) {i : Fin 52} (hi : i ≠ 0) : (crowded k).node i ≠ .free := by
  simp only [crowded, if_neg hi]
  split <;> rintro ⟨⟩

theorem sound_crowded (k : Nat) : Sound (crowded k) where
  ref_nonneg := fun i => by
    simp only [crowded]
    split <;> decide
  pinned := fun i _ hlink => by cases hlink
  loaded := fun i _ hvalid => node_crowded k fun hi => by
    simp [crowded, hi] at hvalid
  held := fun i hlock => by cases hlock
  sized := fun i => by
    simp only [crowded]
    split
    · exact Nat.zero_le _
    · split <;> decide

theorem rooted_crowded (k : Nat) : (crowded k).Rooted 1 := by
  refine ⟨node_crowded k (by decide), node_crowded k (by decide), fun i name j hlook => node_crowded k ?_⟩
  obtain ⟨entries, off, hdir, hfind⟩ := lookup_eq_some hlook
  simp only [crowded] at hdir
  split at hdir
  · cases hdir
  split at hdir
  · cases hdir
    simp only [findEntry] at hfind
    split at hfind
    · cases hfind
      decide
    · cases hfind
  · cases hdir

theorem namex_resolves_iff_root : PathsRight (crowded 1) 1 [47, 102] := by
  refine (namex_resolves_iff (sound_crowded 1) (by decide) (rooted_crowded 1)).mpr ⟨fun _ => by decide, fun _ => rfl, ?_⟩
  exact ⟨rfl, fun j _ => ⟨.inr (by decide +kernel), trivial⟩⟩

theorem namei_crowded_stops :
    Sound (crowded 50) ∧ (crowded 50).Rooted 1 ∧ (crowded 50).follow 1 (components [102]) = some 51 ∧
      namei 1 [102] (crowded 50) = .error (.panic "iget: no inodes") ∧ ¬PathsRight (crowded 50) 1 [102] := by
  have hstop : namei 1 [102] (crowded 50) = .error (.panic "iget: no inodes") :=
    eq_error_of_map (g := Prod.fst) (by decide +kernel)
  refine ⟨sound_crowded 50, rooted_crowded 50, by decide +kernel, hstop, fun hright => ?_⟩
  obtain ⟨t, ht⟩ := hright.namei
  rw [hstop] at ht
  cases ht

end Xv6.Fs
