import Xv6.Fs.Sound

namespace Xv6.Fs

open Lib Prog

variable {n : Nat}

theorem putEntry_nil (de : Dirent n) : putEntry [] 0 de = [de] := rfl

theorem putEntry_zero (e de : Dirent n) (es : List (Dirent n)) :
    putEntry (e :: es) 0 de = de :: es := by
  simp [putEntry]

theorem length_putEntry_le (de : Dirent n)
    (hes : es.length ≤ maxDirents) (hoff : off < maxDirents) (hle : off ≤ es.length) :
    (putEntry es off de).length ≤ maxDirents := by
  unfold putEntry
  split
  case isTrue => rwa [List.length_set]
  case isFalse =>
    rw [List.length_append, List.length_singleton]
    omega

theorem putEntry_succ (e de : Dirent n) (es : List (Dirent n)) (off : Nat) :
    putEntry (e :: es) (off + 1) de = e :: putEntry es off de := by
  simp only [putEntry, List.length_cons, Nat.add_lt_add_iff_right]
  split <;> rfl

namespace Store

variable (v : Store n)

def setEntry (dp : Fin n) (entries : List (Dirent n)) (off : Nat) (de : Dirent n) : Store n :=
  { v.setNode dp (.dir (putEntry entries off de)) with
    freeBlocks := v.freeBlocks - newBlocks entries off }

variable {v}

theorem setEntry_addRef :
    (v.addRef i k).setEntry dp entries off de = (v.setEntry dp entries off de).addRef i k := rfl

theorem setEntry_self : (v.setEntry dp entries off de).node dp = .dir (putEntry entries off de) := by
  simp [setEntry, setNode]

theorem setEntry_of_ne (h : i ≠ dp) :
    (v.setEntry dp entries off de).node i = v.node i := by
  simp [setEntry, setNode, h]

theorem setEntry_ne_free (hdir : v.node dp = .dir entries) :
    (v.setEntry dp entries off de).node i ≠ .free ↔ v.node i ≠ .free := by
  by_cases h : i = dp
  · subst h
    simp [setEntry_self, hdir]
  · rw [setEntry_of_ne h]

theorem Pinned.setEntry (hv : v.Pinned) (hdir : v.node dp = .dir entries) :
    (v.setEntry dp entries off de).Pinned :=
  ⟨hv.ref_nonneg, fun i hn hl => hv.linked i ((setEntry_ne_free hdir).mp hn) hl⟩

end Store

variable [NeZero n]

section Entries

variable {name m : Str} {es : List (Dirent n)} {e : Dirent n} {off : Nat} {j : Fin n}

theorem freeEntry_le (es : List (Dirent n)) : freeEntry es ≤ es.length := by
  induction es with
  | nil => exact le_rfl
  | cons e es ih =>
    rw [freeEntry]
    split
    · exact Nat.zero_le _
    · exact Nat.succ_le_succ ih

theorem findEntry_eq_none_iff :
    findEntry name es = none ↔ ∀ e ∈ es, e.inum ≠ 0 → namecmp name e.name ≠ 0 := by
  induction es with
  | nil => simp [findEntry]
  | cons e es ih =>
    rw [findEntry, List.forall_mem_cons]
    split
    case isTrue h => simp [h.1, h.2]
    case isFalse h =>
      rw [Option.map_eq_none_iff, ih]
      exact ⟨fun hes => ⟨fun h0 hc => h ⟨h0, hc⟩, hes⟩, fun hes => hes.2⟩

theorem findEntry_eq_some (h : findEntry name es = some (off, j)) :
    ∃ e, es[off]? = some e ∧ e.inum = j ∧ j ≠ 0 ∧ namecmp name e.name = 0 := by
  induction es generalizing off with
  | nil => cases h
  | cons e es ih =>
    rw [findEntry] at h
    split at h
    case isTrue hcond =>
      cases h
      exact ⟨e, rfl, rfl, hcond.1, hcond.2⟩
    case isFalse =>
      obtain ⟨⟨off', j'⟩, hfind, heq⟩ := Option.map_eq_some_iff.mp h
      cases heq
      exact ih hfind

theorem findEntry_lt (h : findEntry name es = some (off, j)) : off < es.length := by
  obtain ⟨e, he, -⟩ := findEntry_eq_some h
  exact (List.getElem?_eq_some_iff.mp he).1

def HasEntry (es : List (Dirent n)) (m : Str) (j : Fin n) : Prop :=
  ∃ e ∈ es, e.inum = j ∧ j ≠ 0 ∧ namecmp m e.name = 0

def UniqueNames (es : List (Dirent n)) : Prop :=
  es.Pairwise fun a b => a.inum ≠ 0 → b.inum ≠ 0 → namecmp a.name b.name ≠ 0

instance (es : List (Dirent n)) : Decidable (UniqueNames es) :=
  inferInstanceAs (Decidable (es.Pairwise _))

theorem hasEntry_cons :
    HasEntry (a :: es) m j ↔ (a.inum = j ∧ j ≠ 0 ∧ namecmp m a.name = 0) ∨ HasEntry es m j := by
  simp [HasEntry]

theorem findEntry_eq_none_iff_hasEntry : findEntry m es = none ↔ ∀ j, ¬ HasEntry es m j := by
  rw [findEntry_eq_none_iff]
  constructor
  · rintro h j ⟨e, he, rfl, h0, hc⟩
    exact h e he h0 hc
  · intro h e he h0 hc
    exact h e.inum ⟨e, he, rfl, h0, hc⟩

theorem HasEntry.of_findEntry (h : findEntry m es = some (off, j)) : HasEntry es m j := by
  obtain ⟨e, he, hj, h0, hc⟩ := findEntry_eq_some h
  exact ⟨e, List.mem_of_getElem? he, hj, h0, hc⟩

theorem findEntry_of_hasEntry (h : HasEntry es m j) (honly : ∀ j', HasEntry es m j' → j' = j) :
    (findEntry m es).map Prod.snd = some j := by
  cases hfind : findEntry m es with
  | none => exact absurd h (findEntry_eq_none_iff_hasEntry.mp hfind j)
  | some r =>
    obtain ⟨off, j'⟩ := r
    rw [Option.map_some, honly j' (.of_findEntry hfind)]

theorem hasEntry_put :
    HasEntry (putEntry es (freeEntry es) de) m j ↔
      HasEntry es m j ∨ (de.inum = j ∧ j ≠ 0 ∧ namecmp m de.name = 0) := by
  induction es with
  | nil => simp [freeEntry, putEntry_nil, HasEntry]
  | cons e es ih =>
    rw [freeEntry]
    split
    case isTrue h0 =>
      rw [putEntry_zero, hasEntry_cons, hasEntry_cons]
      have hfree : ¬ (e.inum = j ∧ j ≠ 0 ∧ namecmp m e.name = 0) := by
        rintro ⟨rfl, hne, -⟩
        exact hne h0
      simp only [hfree, false_or, or_comm]
    case isFalse => rw [putEntry_succ, hasEntry_cons, hasEntry_cons, ih, or_assoc]

theorem hasEntry_clear (hu : UniqueNames es) (h : findEntry name es = some (off, i)) :
    HasEntry (putEntry es off ⟨0, []⟩) m j ↔ HasEntry es m j ∧ namecmp m name ≠ 0 := by
  induction es generalizing off with
  | nil => cases h
  | cons e es ih =>
    obtain ⟨hhead, htail⟩ := List.pairwise_cons.mp hu
    rw [findEntry] at h
    split at h
    case isTrue hcond =>
      cases h
      rw [putEntry_zero, hasEntry_cons, hasEntry_cons]
      obtain ⟨h0, hname⟩ := hcond
      constructor
      · rintro (⟨rfl, hne, -⟩ | hes)
        · exact absurd rfl hne
        · refine ⟨.inr hes, fun hmn => ?_⟩
          obtain ⟨b, hb, rfl, hb0, hbc⟩ := hes
          refine hhead b hb h0 hb0 (namecmp_eq_zero_iff.mpr ?_)
          rw [← namecmp_eq_zero_iff.mp hname, ← namecmp_eq_zero_iff.mp hmn, namecmp_eq_zero_iff.mp hbc]
      · rintro ⟨⟨-, -, hmc⟩ | hes, hmn⟩
        · refine absurd (namecmp_eq_zero_iff.mpr ?_) hmn
          rw [namecmp_eq_zero_iff.mp hmc, namecmp_eq_zero_iff.mp hname]
        · exact .inr hes
    case isFalse hcond =>
      obtain ⟨⟨off', i'⟩, hfind, heq⟩ := Option.map_eq_some_iff.mp h
      cases heq
      rw [putEntry_succ, hasEntry_cons, hasEntry_cons, ih htail hfind]
      constructor
      · rintro (⟨rfl, h0, hmc⟩ | ⟨hes, hmn⟩)
        · refine ⟨.inl ⟨rfl, h0, hmc⟩, fun hmn => hcond ⟨h0, namecmp_eq_zero_iff.mpr ?_⟩⟩
          rw [← namecmp_eq_zero_iff.mp hmn, namecmp_eq_zero_iff.mp hmc]
        · exact ⟨.inr hes, hmn⟩
      · rintro ⟨hme | hes, hmn⟩
        · exact .inl hme
        · exact .inr ⟨hes, hmn⟩

end Entries

section Operations

variable {s : State n} {v : Store n} {dp inum x : Fin n} {name : Str} {entries : List (Dirent n)} {off : Nat}
  {de : Dirent n} (hs : Sound s) (hv : s.toStore = v) (hdir : v.node dp = .dir entries)

omit [NeZero n] in
include hs hv hdir in
theorem writeDirent_ends (hoff : off ≤ entries.length) (hmax : off < maxDirents)
    (hblocks : newBlocks entries off ≤ v.freeBlocks) :
    Ends (writeDirent dp off de) s (.ok (1, v.setEntry dp entries off de)) := by
  subst hv
  apply Does.get
  simp only [hdir]
  rw [if_neg (by omega), if_neg (by omega)]
  refine .ok rfl (hs.of_agree (i := dp) (fun j hj => ?_) ?_) rfl
  · exact ⟨Store.setEntry_of_ne hj, rfl, rfl, rfl, rfl⟩
  · have hne : s.node dp ≠ .free := by simp [hdir]
    have hsized := hs.sized dp
    rw [hdir] at hsized
    exact {
      ref_nonneg := hs.ref_nonneg dp
      pinned _ hl := hs.pinned dp hne hl
      loaded _ _ := (Store.setEntry_ne_free hdir).mpr hne
      held := hs.held dp
      sized := by
        change ((s.setEntry dp entries off de).node dp).entries.length ≤ maxDirents
        rw [Store.setEntry_self]
        exact length_putEntry_le de hsized hmax hoff }

omit [NeZero n] in
include hs hv hdir in
theorem writeDirent_outside (h : entries.length < off ∨ maxDirents < off + 1) :
    Ends (writeDirent dp off de) s (.ok (-1, v)) := by
  have hnode : s.node dp = .dir entries := hv ▸ hdir
  apply Does.get
  simp only [hnode]
  rw [if_pos h]
  exact .pure hs hv

omit [NeZero n] in
include hv hdir in
theorem writeDirent_no_block (hoff : off ≤ entries.length) (hmax : off < maxDirents)
    (hblocks : v.freeBlocks < newBlocks entries off) :
    Ends (writeDirent dp off de) s (.error (.panic "balloc: out of blocks")) := by
  subst hv
  apply Does.get
  simp only [hdir]
  rw [if_neg (by omega), if_pos hblocks]
  exact panics_ends _

omit [NeZero n] in
include hs hv in
theorem writeDirent_not_dir (h : (v.node dp).isDir = false) :
    Ends (writeDirent dp off de) s (.ok (-1, v)) := by
  subst hv
  apply Does.get
  cases hnode : s.node dp with
  | dir entries => simp [hnode, Node.isDir] at h
  | free | file _ | dev _ _ => exact .pure hs rfl

include hs hv hdir in
theorem dirlink_hit (hfind : findEntry name entries = some (off, x)) (hslot : v.HasSlot x)
    (hfree : v.locked x = false) : Ends (dirlink dp name inum) s (.ok (-1, v)) := by
  have hpin : v.Pinned := hv ▸ hs.toPinned
  refine (dirlookup_hit hs hv hdir hfind hslot).bind fun s₁ hs₁ hv₁ => ?_
  have hpos : 0 < (v.addRef x 1).ref x := by
    rw [Store.addRef_ref_self]
    have := hpin.ref_nonneg x
    omega
  refine (iput_ends hs₁ hv₁ hpos hfree).bind fun s₂ hs₂ hv₂ => ?_
  rw [hpin.drop_addRef] at hv₂
  exact .pure hs₂ hv₂

include hs hv hdir in
theorem dirlink_hit_held (hfind : findEntry name entries = some (off, x)) (hslot : v.HasSlot x)
    (hheld : v.locked x) : Ends (dirlink dp name inum) s (.error (.iputHeld x)) :=
  (dirlookup_hit hs hv hdir hfind hslot).bind fun _ _ hv₁ => (iput_held hv₁ hheld).bind_error

include hv hdir in
theorem dirlink_hit_full (hfind : findEntry name entries = some (off, x)) (hslot : ¬ v.HasSlot x) :
    Ends (dirlink dp name inum) s (.error (.panic "iget: no inodes")) :=
  (dirlookup_full hv hdir hfind hslot).bind_error

include hv in
theorem dirlink_not_dir (h : (v.node dp).isDir = false) :
    Ends (dirlink dp name inum) s (.error (.panic "dirlookup not DIR")) :=
  (dirlookup_not_dir hv h).bind_error

include hs hv hdir in
theorem dirlink_long (hfind : findEntry name entries = none) (hmax : maxDirents ≤ freeEntry entries) :
    Ends (dirlink dp name inum) s (.error (.panic "dirlink")) := by
  refine (dirlookup_miss hs hv hdir hfind).bind fun s₁ hs₁ hv₁ => ?_
  have hnode : s₁.node dp = .dir entries := hv₁ ▸ hdir
  apply Does.get
  simp only [hnode]
  exact (writeDirent_outside hs₁ hv₁ hdir (.inr (by omega))).bind fun _ _ _ => panics_ends _

include hs hv hdir in
theorem dirlink_no_block (hfind : findEntry name entries = none) (hmax : freeEntry entries < maxDirents)
    (hblocks : v.freeBlocks < newBlocks entries (freeEntry entries)) :
    Ends (dirlink dp name inum) s (.error (.panic "balloc: out of blocks")) := by
  refine (dirlookup_miss hs hv hdir hfind).bind fun s₁ hs₁ hv₁ => ?_
  have hnode : s₁.node dp = .dir entries := hv₁ ▸ hdir
  apply Does.get
  simp only [hnode]
  exact (writeDirent_no_block hv₁ hdir (freeEntry_le entries) hmax hblocks).bind_error

include hs hv hdir in
theorem dirlink_ends (hfind : findEntry name entries = none) (hmax : freeEntry entries < maxDirents)
    (hblocks : newBlocks entries (freeEntry entries) ≤ v.freeBlocks) :
    Ends (dirlink dp name inum) s
      (.ok (0, v.setEntry dp entries (freeEntry entries) ⟨inum, strncpy name dirsiz⟩)) := by
  refine (dirlookup_miss hs hv hdir hfind).bind fun s₁ hs₁ hv₁ => ?_
  have hnode : s₁.node dp = .dir entries := hv₁ ▸ hdir
  apply Does.get
  simp only [hnode]
  refine (writeDirent_ends hs₁ hv₁ hdir (freeEntry_le entries) hmax hblocks).bind fun s₂ hs₂ hv₂ => ?_
  exact .pure hs₂ hv₂

end Operations

end Xv6.Fs
