import Xv6.Fs.MoveFile

namespace Xv6.Fs

open Lib Prog

variable {n : Nat} [NeZero n] {s s' : State n} {v v' : Store n} {cwd P S D : Fin n} {src dest name : Str}

def sampleNode : Fin 8 → Node 8
  | 1 => .dir [⟨1, [46]⟩, ⟨1, [46, 46]⟩, ⟨2, [102]⟩, ⟨3, [100]⟩, ⟨5, [101]⟩]
  | 2 => .file [1, 2, 3]
  | 3 => .dir [⟨3, [46]⟩, ⟨1, [46, 46]⟩, ⟨4, [103]⟩]
  | 4 => .file []
  | 5 => .dir [⟨5, [46]⟩, ⟨1, [46, 46]⟩]
  | _ => .free

def sample : State 8 where
  node := sampleNode
  nlink := fun _ => 1
  freeBlocks := 900
  ref := Pi.single 1 1
  locked := fun _ => false
  valid := fun _ => false

theorem sample_sound : Sound sample where
  ref_nonneg := by decide
  pinned := by decide
  loaded := by decide
  held := by decide
  sized := by decide

def Store.Entry (v : Store n) (i : Fin n) (m : Str) (j : Fin n) : Prop :=
  ∃ entries, v.node i = .dir entries ∧ HasEntry entries m j

structure Moved (v v' : Store n) (P D S : Fin n) (name : Str) : Prop where
  there : v'.lookup D name = some S
  gone : v'.lookup P name = none
  entry : ∀ i m j, ¬ (namecmp m name = 0 ∧ (i = P ∨ i = D)) → (v'.Entry i m j ↔ v.Entry i m j)
  isDir : ∀ i, (v'.node i).isDir = (v.node i).isDir
  node : ∀ i, (v.node i).isDir = false → v'.node i = v.node i
  nlink : v'.nlink = v.nlink

structure Success (v : Store n) (cwd : Fin n) (src dest : Str) (v' : Store n) (S D P : Fin n)
    (name : Str) (entries old : List (Dirent n)) (off : Nat) : Prop where
  source : v.resolve (Store.start cwd src) (elems src) = some S
  target : v.resolve (Store.start cwd dest) (elems dest) = some D
  parent : ∃ init, elems src = init ++ [name] ∧ v.resolve (Store.start cwd src) init = some P
  target_dir : v.node D = .dir entries
  fresh : findEntry (safestrcpy src dirsiz) entries = none
  parent_dir : v.node P = .dir old
  found : findEntry name old = some (off, S)
  apart : P ≠ D
  store : v' = ((v.linked D entries (safestrcpy src dirsiz) S).setEntry P old off ⟨0, []⟩).addRef S 1

theorem MovesInto.success (hfree : ∀ i, v.locked i = false)
    (hsrc : v.resolve (Store.start cwd src) (elems src) = some S)
    (hdest : v.resolve (Store.start cwd dest) (elems dest) = some D)
    (hdir : v.node D = .dir entries) (h : MovesInto v cwd src S D entries (.ok (0, v'))) :
    ∃ P name old off, Success v cwd src dest v' S D P name entries old off := by
  cases h with
  | moved hfind hmax hblocks hwalk hPS hPD hold hfindP =>
    obtain ⟨init, hes, hinit, -⟩ :=
      resolve_of_walk_parent (linkedHeld_node hfree) (walk_of_walkPath hwalk)
    exact ⟨_, _, _, _, hsrc, hdest, ⟨init, hes, hinit⟩, hdir, hfind, hold, hfindP, hPD, rfl⟩

theorem Moves.success (hfree : ∀ i, v.locked i = false) (h : Moves v cwd src dest (.ok (0, v'))) :
    ∃ S D P name entries old off, Success v cwd src dest v' S D P name entries old off := by
  cases h with
  | go hwalk _ hfrom =>
    have hsrc := resolve_of_walk (fun _ _ => rfl) (walk_of_walkPath hwalk)
    cases hfrom with
    | into hwalk _ hdir hinto =>
      have hdest := resolve_of_walk (v := v) (w := v.take _) (fun _ _ => rfl) (walk_of_walkPath hwalk)
      obtain ⟨P, name, old, off, h⟩ := hinto.success hfree hsrc hdest hdir
      exact ⟨_, _, P, name, _, old, off, h⟩

section Entries

variable {entries old : List (Dirent n)} {off : Nat}
  (h : Success v cwd src dest v' S D P name entries old off)

include h in
theorem Success.node_target :
    v'.node D =
      .dir (putEntry entries (freeEntry entries) ⟨S, strncpy (safestrcpy src dirsiz) dirsiz⟩) := by
  rw [h.store, Store.addRef_node, Store.setEntry_of_ne h.apart.symm]
  exact Store.setEntry_self

include h in
theorem Success.node_parent : v'.node P = .dir (putEntry old off ⟨0, []⟩) := by
  rw [h.store, Store.addRef_node, Store.setEntry_self]

include h in
theorem Success.node_other (hD : i ≠ D) (hP : i ≠ P) : v'.node i = v.node i := by
  rw [h.store, Store.addRef_node, Store.setEntry_of_ne hP]
  exact Store.setEntry_of_ne hD

include h in
theorem Success.entry_target :
    v'.Entry D m j ↔ v.Entry D m j ∨ (S = j ∧ namecmp m (safestrcpy src dirsiz) = 0) := by
  have hS : S ≠ 0 := by
    obtain ⟨e, -, -, h0, -⟩ := findEntry_eq_some h.found
    exact h0
  have hname : namecmp m (strncpy (safestrcpy src dirsiz) dirsiz) = 0 ↔
      namecmp m (safestrcpy src dirsiz) = 0 := by
    rw [namecmp_eq_zero_iff, namecmp_eq_zero_iff, nameKey_strncpy]
  simp only [Store.Entry, h.node_target, h.target_dir, Node.dir.injEq, exists_eq_left',
    hasEntry_put, hname]
  constructor
  · rintro (hold | ⟨rfl, -, hm⟩)
    · exact .inl hold
    · exact .inr ⟨rfl, hm⟩
  · rintro (hold | ⟨rfl, hm⟩)
    · exact .inl hold
    · exact .inr ⟨rfl, hS, hm⟩

include h in
theorem Success.entry_parent (hu : UniqueNames old) :
    v'.Entry P m j ↔ v.Entry P m j ∧ namecmp m name ≠ 0 := by
  simp only [Store.Entry, h.node_parent, h.parent_dir, Node.dir.injEq, exists_eq_left',
    hasEntry_clear hu h.found]

include h in
theorem Success.isDir_eq (i : Fin n) : (v'.node i).isDir = (v.node i).isDir := by
  by_cases hD : i = D
  · rw [hD, h.node_target, h.target_dir]
    rfl
  · by_cases hP : i = P
    · rw [hP, h.node_parent, h.parent_dir]
      rfl
    · rw [h.node_other hD hP]

include h in
theorem Success.node_of_not_dir (hi : (v.node i).isDir = false) :
    v'.node i = v.node i := by
  refine h.node_other ?_ ?_
  · rintro rfl
    simp [h.target_dir, Node.isDir] at hi
  · rintro rfl
    simp [h.parent_dir, Node.isDir] at hi

end Entries

theorem lookup_eq_none_iff : v.lookup i m = none ↔ ∀ j, ¬ v.Entry i m j := by
  unfold Store.lookup Store.Entry
  split
  case h_1 entries hdir =>
    simp only [hdir, Node.dir.injEq, exists_eq_left', Option.map_eq_none_iff,
      findEntry_eq_none_iff_hasEntry]
  case h_2 hdir =>
    refine ⟨?_, fun _ => rfl⟩
    rintro - j ⟨es, hes, -⟩
    exact hdir es hes

theorem Store.Entry.of_lookup (h : v.lookup i m = some j) : v.Entry i m j := by
  obtain ⟨entries, off, hdir, hfind⟩ := lookup_eq_some h
  exact ⟨entries, hdir, .of_findEntry hfind⟩

theorem lookup_of_entry (h : v.Entry i m j)
    (honly : ∀ j', v.Entry i m j' → j' = j) : v.lookup i m = some j := by
  obtain ⟨entries, hdir, hentry⟩ := h
  rw [Store.lookup, hdir]
  exact findEntry_of_hasEntry hentry fun j' hj' => honly j' ⟨entries, hdir, hj'⟩

section Moved

variable {entries old : List (Dirent n)} {off : Nat}
  (h : Success v cwd src dest v' S D P name entries old off) (hu : UniqueNames old)
  (hnew : v.lookup D name = none)

include h hu hnew in
theorem Success.moved (hname : namecmp (safestrcpy src dirsiz) name = 0) : Moved v v' P D S name := by
  have hnone := lookup_eq_none_iff.mp hnew
  have hself : namecmp name name = 0 := namecmp_eq_zero_iff.mpr rfl
  have htarget : ∀ m j, v'.Entry D m j ↔ v.Entry D m j ∨ (S = j ∧ namecmp m name = 0) := by
    intro m j
    rw [h.entry_target, namecmp_eq_zero_iff, namecmp_eq_zero_iff, namecmp_eq_zero_iff.mp hname]
  refine ⟨?_, ?_, ?_, h.isDir_eq, fun i hi => h.node_of_not_dir hi, ?_⟩
  · refine lookup_of_entry ((htarget name S).mpr (.inr ⟨rfl, hself⟩)) fun j hj => ?_
    exact (((htarget name j).mp hj).resolve_left (hnone j)).1.symm
  · exact lookup_eq_none_iff.mpr fun j hj => ((h.entry_parent hu).mp hj).2 hself
  · intro i m j hother
    by_cases hD : i = D
    · subst hD
      have hm : namecmp m name ≠ 0 := fun hm => hother ⟨hm, .inr rfl⟩
      rw [htarget]
      exact ⟨fun hj => hj.resolve_right fun hS => hm hS.2, .inl⟩
    · by_cases hP : i = P
      · subst hP
        have hm : namecmp m name ≠ 0 := fun hm => hother ⟨hm, .inl rfl⟩
        rw [h.entry_parent hu]
        exact ⟨And.left, fun hj => ⟨hj, hm⟩⟩
      · rw [Store.Entry, Store.Entry, h.node_other hD hP]
  · rw [h.store]
    rfl

include h hu hnew in
theorem Success.moved_iff : Moved v v' P D S name ↔ namecmp (safestrcpy src dirsiz) name = 0 := by
  refine ⟨fun hmoved => ?_, h.moved hu hnew⟩
  have hthere := h.entry_target.mp (.of_lookup hmoved.there)
  obtain ⟨-, hname⟩ := hthere.resolve_left (lookup_eq_none_iff.mp hnew S)
  rw [namecmp_eq_zero_iff] at hname ⊢
  exact hname.symm

end Moved

theorem sysMoveFile_moves_iff {init : List Str} (hs : Sound s) (hfree : ∀ i, s.locked i = false)
    (hcwd : 0 < s.ref cwd) (hunique : ∀ i, UniqueNames (s.node i).entries)
    (hsrc : elems src = init ++ [name]) (hP : s.resolve (Store.start cwd src) init = some P)
    (hS : s.lookup P name = some S) (hD : s.resolve (Store.start cwd dest) (elems dest) = some D)
    (hnew : s.lookup D name = none) (hret : sysMoveFile cwd src dest s = .ok (0, s')) :
    Moved s.toStore s'.toStore P D S name ↔ namecmp (safestrcpy src dirsiz) name = 0 := by
  obtain ⟨r, hmoves, hends⟩ := sysMoveFile_ends src dest hs hfree hcwd
  obtain ⟨rfl, -⟩ := hends.eq_ok hret
  obtain ⟨S', D', P', name', entries, old, off, h⟩ := hmoves.success hfree
  obtain ⟨init', hinit', hP'⟩ := h.parent
  obtain ⟨rfl, hname⟩ := List.append_inj' (hsrc.symm.trans hinit') rfl
  cases hname
  cases hP.symm.trans hP'
  cases hD.symm.trans h.target
  have hS' : s.resolve (Store.start cwd src) (elems src) = some S := by
    rw [hsrc, resolve_append, hP]
    simp [Store.resolve, hS]
  cases hS'.symm.trans h.source
  have hu := hunique P
  rw [h.parent_dir] at hu
  exact h.moved_iff hu hnew

theorem sysMoveFile_moves_iff_plain : ∃ s', sysMoveFile 1 [102] [100] sample = .ok (0, s') ∧
    Moved sample.toStore s'.toStore 1 3 2 [102] := by
  obtain ⟨r, s', hret, hr⟩ := exists_of_ok_any (x := sysMoveFile 1 [102] [100]) (s := sample)
    (p := fun r => r.1 == 0) (by decide +kernel)
  obtain rfl : r = 0 := by simpa using hr
  have hsrc : elems [102] = [] ++ [[102]] := by decide
  refine ⟨s', hret, ?_⟩
  exact (sysMoveFile_moves_iff sample_sound (fun _ => rfl) (by decide) (by decide) hsrc (by decide)
    (by decide) (by decide) (by decide) hret).mpr (by decide)

theorem sysMoveFile_misnames : ∃ s', sysMoveFile 1 [100, 47, 103] [101] sample = .ok (0, s') ∧
    elems [100, 47, 103] = [[100]] ++ [[103]] ∧ sample.resolve 1 [[100]] = some 3 ∧
    sample.lookup 3 [103] = some 4 ∧ sample.resolve 1 [[101]] = some 5 ∧
    sample.lookup 5 [103] = none ∧ ¬ Moved sample.toStore s'.toStore 3 5 4 [103] := by
  obtain ⟨r, s', hret, hr⟩ := exists_of_ok_any (x := sysMoveFile 1 [100, 47, 103] [101]) (s := sample)
    (p := fun r => r.1 == 0 && r.2.lookup 5 [103] == none) (by decide +kernel)
  simp only [Bool.and_eq_true, beq_iff_eq] at hr
  obtain ⟨rfl, hnone⟩ := hr
  refine ⟨s', hret, by decide, by decide, by decide, by decide, by decide, fun hmoved => ?_⟩
  rw [hmoved.there] at hnone
  cases hnone

end Xv6.Fs
