import Xv6.Fs.Directory
import Xv6.Fs.Resolve

namespace Xv6.Fs

open Lib Prog

variable {n : Nat}

def Store.take (v : Store n) (i : Fin n) : Store n := (v.addRef i 1).setLocked i true

variable [NeZero n]

/-- From the second `dirlookup` on: the old entry is cleared. -/
def moveOut (srcInode destInode dpOld : Fin n) (filename : Str) : M n Int := do
  match ← dirlookup dpOld filename with
  | none =>
    iunlockput srcInode
    iunlockput destInode
    return -1
  | some (offset, _) =>
    ilock dpOld
    if (← writeDirent dpOld offset ⟨0, []⟩) ≠ 1 then
      iunlockput dpOld
      iunlockput srcInode
      iunlockput destInode
      return -1
    else
      iunlockput dpOld
      iunlockput destInode
      iunlockput srcInode
      return 0

/-- From the call of `dirlink` on, with both inodes locked. -/
def moveInto (cwd : Fin n) (srcFile filename : Str) (srcInode destInode : Fin n) : M n Int := do
  if (← dirlink destInode filename srcInode) < 0 then
    iunlockput destInode
    iunlockput srcInode
    return -1
  else
    match ← nameiparent cwd srcFile with
    | none =>
      iunlockput srcInode
      iunlockput destInode
      return -1
    | some (dpOld, filename) => moveOut srcInode destInode dpOld filename

/-- From the second `namei` on, with the file locked. -/
def moveFrom (cwd : Fin n) (srcFile destDir : Str) (srcInode : Fin n) : M n Int := do
  let filename := safestrcpy srcFile dirsiz
  match ← namei cwd destDir with
  | none =>
    iunlockput srcInode
    return -1
  | some destInode =>
    ilock destInode
    moveInto cwd srcFile filename srcInode destInode

def sysMoveFile (cwd : Fin n) (srcFile destDir : Str) : M n Int := do
  match ← namei cwd srcFile with
  | none => return -1
  | some srcInode =>
    ilock srcInode
    moveFrom cwd srcFile destDir srcInode

def Store.linked (v : Store n) (D : Fin n) (entries : List (Dirent n)) (filename : Str) (S : Fin n) :
    Store n :=
  v.setEntry D entries (freeEntry entries) ⟨S, strncpy filename dirsiz⟩

def Store.linkedHeld (v : Store n) (src : Str) (S D : Fin n) (entries : List (Dirent n)) : Store n :=
  ((v.linked D entries (safestrcpy src dirsiz) S).take S).take D

abbrev Outcome (n : Nat) := Except (Stop n) (Int × Store n)

section Outcomes

variable (v : Store n) (cwd : Fin n) (src dest : Str)

inductive MovesInto (S D : Fin n) (entries : List (Dirent n)) : Outcome n → Prop
  | present {off x} : findEntry (safestrcpy src dirsiz) entries = some (off, x) →
      ((v.take S).take D).HasSlot x → x ≠ S → x ≠ D → MovesInto S D entries (.ok (-1, v))
  | presentHeld {off x} : findEntry (safestrcpy src dirsiz) entries = some (off, x) →
      ((v.take S).take D).HasSlot x → x = S ∨ x = D → MovesInto S D entries (.error (.iputHeld x))
  | presentFull {off x} : findEntry (safestrcpy src dirsiz) entries = some (off, x) →
      ¬ ((v.take S).take D).HasSlot x → MovesInto S D entries (.error (.panic "iget: no inodes"))
  | long : findEntry (safestrcpy src dirsiz) entries = none → maxDirents ≤ freeEntry entries →
      MovesInto S D entries (.error (.panic "dirlink"))
  | noBlock : findEntry (safestrcpy src dirsiz) entries = none → freeEntry entries < maxDirents →
      v.freeBlocks < newBlocks entries (freeEntry entries) →
      MovesInto S D entries (.error (.panic "balloc: out of blocks"))
  | parentStop {e} : findEntry (safestrcpy src dirsiz) entries = none →
      freeEntry entries < maxDirents → newBlocks entries (freeEntry entries) ≤ v.freeBlocks →
      (v.linkedHeld src S D entries).walkPath cwd src true = .error e →
      MovesInto S D entries (.error e)
  | moved {P name old off} : findEntry (safestrcpy src dirsiz) entries = none →
      freeEntry entries < maxDirents → newBlocks entries (freeEntry entries) ≤ v.freeBlocks →
      (v.linkedHeld src S D entries).walkPath cwd src true = .ok (some (P, name)) →
      P ≠ S → P ≠ D → v.node P = .dir old → findEntry name old = some (off, S) →
      MovesInto S D entries
        (.ok (0, ((v.linked D entries (safestrcpy src dirsiz) S).setEntry P old off ⟨0, []⟩).addRef S 1))

inductive MovesFrom (S : Fin n) : Outcome n → Prop
  | destStop {e} : (v.take S).walkPath cwd dest false = .error e → MovesFrom S (.error e)
  | destMissing : (v.take S).walkPath cwd dest false = .ok none → MovesFrom S (.ok (-1, v))
  | destSame {m} : (v.take S).walkPath cwd dest false = .ok (some (S, m)) →
      MovesFrom S (.error (.ilockHeld S))
  | destFree {D m} : (v.take S).walkPath cwd dest false = .ok (some (D, m)) → D ≠ S →
      v.node D = .free → MovesFrom S (.error (.panic "ilock: no type"))
  | destNotDir {D m} : (v.take S).walkPath cwd dest false = .ok (some (D, m)) → D ≠ S →
      v.node D ≠ .free → (v.node D).isDir = false → MovesFrom S (.error (.panic "dirlookup not DIR"))
  | into {D m entries r} : (v.take S).walkPath cwd dest false = .ok (some (D, m)) → D ≠ S →
      v.node D = .dir entries → MovesInto v cwd src S D entries r → MovesFrom S r

inductive Moves : Outcome n → Prop
  | srcStop {e} : v.walkPath cwd src false = .error e → Moves (.error e)
  | srcMissing : v.walkPath cwd src false = .ok none → Moves (.ok (-1, v))
  | srcFree {S m} : v.walkPath cwd src false = .ok (some (S, m)) → v.node S = .free →
      Moves (.error (.panic "ilock: no type"))
  | go {S m r} : v.walkPath cwd src false = .ok (some (S, m)) → v.node S ≠ .free →
      MovesFrom v cwd src dest S r → Moves r

end Outcomes

namespace Store

variable {v : Store n} {i j : Fin n}

omit [NeZero n]

@[simp] theorem take_node : (v.take i).node = v.node := rfl

@[simp] theorem take_locked_self : (v.take i).locked i = true := setLocked_self _ _ _

theorem take_locked_of_ne (h : j ≠ i) : (v.take i).locked j = v.locked j := setLocked_of_ne _ _ h

theorem take_addRef (k : Int) : (v.take i).addRef j k = (v.addRef j k).take i := by
  rw [take, take, addRef_comm, setLocked_addRef]

theorem setEntry_take :
    (v.take i).setEntry dp entries off de = (v.setEntry dp entries off de).take i := rfl

theorem le_take_ref : v.ref j ≤ (v.take i).ref j := by
  by_cases h : j = i
  · rw [h, take, setLocked_ref, addRef_ref_self]
    omega
  · rw [take, setLocked_ref, addRef_ref_of_ne _ _ h]

theorem Pinned.take (h : v.Pinned) (i : Fin n) : (v.take i).Pinned := (h.addRef i).setLocked i true

theorem Pinned.take_ref_pos (h : v.Pinned) : 0 < (v.take i).ref i := by
  rw [Store.take, setLocked_ref]
  exact h.addRef_pos

end Store

section Endings

variable {s : State n} {v : Store n} {cwd S D : Fin n} {src : Str}

omit [NeZero n] in
theorem iunlockput_take (hs : Sound s) (hsv : s.toStore = w.take i)
    (hw : w.Pinned) (hfree : w.locked i = false) : Ends (iunlockput i) s (.ok ((), w)) := by
  have h := iunlockput_ends hs hsv Store.take_locked_self
  rwa [Store.take, unlock_drop hw hfree] at h

variable (hfree : ∀ i, v.locked i = false)

omit [NeZero n] in
include hfree in
theorem take_take_locked :
    ((v.take S).take D).locked x = false ↔ x ≠ S ∧ x ≠ D := by
  constructor
  · intro hx
    refine ⟨?_, ?_⟩
    · rintro rfl
      by_cases hD : x = D
      · subst hD
        simp at hx
      · rw [Store.take_locked_of_ne hD] at hx
        simp at hx
    · rintro rfl
      simp at hx
  · rintro ⟨hS, hD⟩
    rw [Store.take_locked_of_ne hD, Store.take_locked_of_ne hS, hfree]

variable {entries : List (Dirent n)}

include hfree in
theorem linkedHeld_locked :
    (v.linkedHeld src S D entries).locked x = false ↔ x ≠ S ∧ x ≠ D :=
  take_take_locked (v := v.linked D entries (safestrcpy src dirsiz) S) hfree

include hfree in
theorem linkedHeld_node (x : Fin n) (hx : (v.linkedHeld src S D entries).locked x = false) :
    (v.linkedHeld src S D entries).node x = v.node x :=
  Store.setEntry_of_ne ((linkedHeld_locked hfree).mp hx).2

include hfree in
theorem walk_back (hDS : D ≠ S)
    (hres : v.resolve (Store.start cwd src) (elems src) = some S)
    (hwalk : (v.linkedHeld src S D entries).walkPath cwd src true = .ok found) :
    ∃ P name old off, found = some (P, name) ∧ P ≠ S ∧ P ≠ D ∧ v.node P = .dir old ∧
      findEntry name old = some (off, S) := by
  cases found with
  | none =>
    have hheld : (v.linkedHeld src S D entries).locked S := by
      rw [Store.linkedHeld, Store.take_locked_of_ne hDS.symm, Store.take_locked_self]
    exact absurd (walk_of_walkPath hwalk) (walk_parent_ne_none (linkedHeld_node hfree) hres hheld)
  | some p =>
    obtain ⟨P, name⟩ := p
    obtain ⟨init, hes, hinit, hP⟩ :=
      resolve_of_walk_parent (linkedHeld_node hfree) (walk_of_walkPath hwalk)
    obtain ⟨hPS, hPD⟩ := (linkedHeld_locked hfree).mp hP
    have hlook : v.lookup P name = some S := by
      rw [hes, resolve_append, hinit] at hres
      simpa [Store.resolve] using hres
    obtain ⟨old, off, hold, hfind⟩ := lookup_eq_some hlook
    exact ⟨P, name, old, off, rfl, hPS, hPD, hold, hfind⟩

variable (hs : Sound s) (hv : v.Pinned) (hcwd : 0 < v.ref cwd)

omit [NeZero n] in
theorem take_order :
    (((((v.take S).take D).addRef P 1).addRef S 1).setLocked P true).setEntry P old off de =
      ((((v.setEntry P old off de).addRef S 1).take S).take D).take P := by
  rw [Store.addRef_comm, Store.take_addRef (i := D) (j := S), Store.take_addRef (i := S) (j := S)]
  change Store.setEntry (Store.take _ P) P old off de = _
  rw [Store.setEntry_take, Store.setEntry_take, Store.setEntry_take, Store.setEntry_addRef]

include hfree hs hv in
theorem moveOut_ends
    (hsv : s.toStore = ((v.take S).take D).addRef P 1) (hDS : D ≠ S) (hPS : P ≠ S) (hPD : P ≠ D)
    (hold : v.node P = .dir old) (hfind : findEntry name old = some (off, S)) :
    Ends (moveOut S D P name) s (.ok (0, (v.setEntry P old off ⟨0, []⟩).addRef S 1)) := by
  have hlocked : ((v.take S).take D).locked P = false := (take_take_locked hfree).mpr ⟨hPS, hPD⟩
  have hrefS : 0 < (((v.take S).take D).addRef P 1).ref S := by
    rw [Store.addRef_ref_of_ne _ _ hPS.symm]
    exact hv.take_ref_pos.trans_le Store.le_take_ref
  have hrefP : 0 < ((((v.take S).take D).addRef P 1).addRef S 1).ref P := by
    rw [Store.addRef_ref_of_ne _ _ hPS, Store.addRef_ref_self]
    have := ((hv.take S).take D).ref_nonneg P
    omega
  have hnode : ((((v.take S).take D).addRef P 1).addRef S 1).node P = .dir old := by simp [hold]
  have hlen := findEntry_lt hfind
  have hsized : old.length ≤ maxDirents := by
    have hsized := hs.sized P
    rw [hsv] at hsized
    rwa [Store.addRef_node, Store.take_node, Store.take_node, hold] at hsized
  refine (dirlookup_hit hs hsv hold hfind (.inl hrefS)).bind fun s₁ hs₁ hv₁ => ?_
  refine (ilock_ends hs₁ hv₁ hrefP hlocked ?_).bind fun s₂ hs₂ hv₂ => ?_
  · rw [hnode]
    exact nofun
  · have hblocks : newBlocks old off = 0 := by
      rw [newBlocks, if_neg]
      omega
    rw [← Store.setLocked_node _ P true] at hnode
    refine (writeDirent_ends hs₂ hv₂ hnode hlen.le (by omega) (by omega)).bind fun s₃ hs₃ hv₃ => ?_
    rw [take_order] at hv₃
    have hw : ((v.setEntry P old off ⟨0, []⟩).addRef S 1).Pinned := (hv.setEntry hold).addRef S
    refine (iunlockput_take hs₃ hv₃ ((hw.take S).take D) hlocked).bind fun s₄ hs₄ hv₄ => ?_
    refine (iunlockput_take hs₄ hv₄ (hw.take S) ?_).bind fun s₅ hs₅ hv₅ => ?_
    · rw [Store.take_locked_of_ne hDS]
      exact hfree D
    · exact (iunlockput_take hs₅ hv₅ hw (hfree S)).bind fun s₆ hs₆ hv₆ => .pure hs₆ hv₆

include hfree hs hv hcwd in
theorem moveInto_ends (hsv : s.toStore = (v.take S).take D) (hDS : D ≠ S)
    (hdir : v.node D = .dir entries) (hres : v.resolve (Store.start cwd src) (elems src) = some S) :
    ∃ r, MovesInto v cwd src S D entries r ∧
      Ends (moveInto cwd src (safestrcpy src dirsiz) S D) s r := by
  have hlocked {x} : ((v.take S).take D).locked x = false ↔ x ≠ S ∧ x ≠ D := take_take_locked hfree
  cases hfind : findEntry (safestrcpy src dirsiz) entries with
  | some hit =>
    obtain ⟨off, x⟩ := hit
    by_cases hslot : ((v.take S).take D).HasSlot x
    · cases hx : ((v.take S).take D).locked x with
      | false =>
        obtain ⟨hxS, hxD⟩ := hlocked.mp hx
        refine ⟨_, .present hfind hslot hxS hxD, ?_⟩
        refine (dirlink_hit hs hsv hdir hfind hslot hx).bind fun s₁ hs₁ hv₁ => ?_
        refine (iunlockput_take hs₁ hv₁ (hv.take S) ?_).bind fun s₂ hs₂ hv₂ => ?_
        · rw [Store.take_locked_of_ne hDS, hfree]
        · exact (iunlockput_take hs₂ hv₂ hv (hfree S)).bind fun s₃ hs₃ hv₃ => .pure hs₃ hv₃
      | true =>
        have hheld : x = S ∨ x = D := by
          by_contra hne
          rw [not_or] at hne
          rw [hlocked.mpr hne] at hx
          cases hx
        exact ⟨_, .presentHeld hfind hslot hheld,
          (dirlink_hit_held hs hsv hdir hfind hslot hx).bind_error⟩
    · exact ⟨_, .presentFull hfind hslot, (dirlink_hit_full hsv hdir hfind hslot).bind_error⟩
  | none =>
    by_cases hmax : freeEntry entries < maxDirents
    · by_cases hblocks : newBlocks entries (freeEntry entries) ≤ v.freeBlocks
      · refine (dirlink_ends hs hsv hdir hfind hmax hblocks).bind_exists fun s₁ hs₁ hv₁ => ?_
        change s₁.toStore = v.linkedHeld src S D entries at hv₁
        have hwfree : ∀ i, (v.linked D entries (safestrcpy src dirsiz) S).locked i = false := hfree
        have hw : (v.linked D entries (safestrcpy src dirsiz) S).Pinned := hv.setEntry hdir
        have hcwd₁ : 0 < (v.linkedHeld src S D entries).ref cwd :=
          hcwd.trans_le (Store.le_take_ref.trans Store.le_take_ref)
        have hparent : Ends (nameiparent cwd src) s₁ _ := namex_ends hs₁ hv₁ hcwd₁
        cases hwalk : (v.linkedHeld src S D entries).walkPath cwd src true with
        | error e =>
          rw [hwalk] at hparent
          exact ⟨_, .parentStop hfind hmax hblocks hwalk, hparent.bind_error⟩
        | ok found =>
          rw [hwalk] at hparent
          obtain ⟨P, name, old, off, rfl, hPS, hPD, hold, hfindP⟩ := walk_back hfree hDS hres hwalk
          refine ⟨_, .moved hfind hmax hblocks hwalk hPS hPD hold hfindP, ?_⟩
          refine hparent.bind fun s₂ hs₂ hv₂ => ?_
          exact moveOut_ends hwfree hs₂ hw hv₂ hDS hPS hPD
            ((Store.setEntry_of_ne hPD).trans hold) hfindP
      · exact ⟨_, .noBlock hfind hmax (not_le.mp hblocks),
          (dirlink_no_block hs hsv hdir hfind hmax (not_le.mp hblocks)).bind_error⟩
    · exact ⟨_, .long hfind (not_lt.mp hmax),
        (dirlink_long hs hsv hdir hfind (not_lt.mp hmax)).bind_error⟩

include hfree hs hv hcwd in
theorem moveFrom_ends (hsv : s.toStore = v.take S)
    (hres : v.resolve (Store.start cwd src) (elems src) = some S) :
    ∃ r, MovesFrom v cwd src dest S r ∧ Ends (moveFrom cwd src dest S) s r := by
  have hdest : Ends (namei cwd dest) s _ := namei_ends hs hsv (hcwd.trans_le Store.le_take_ref)
  cases hwalk : (v.take S).walkPath cwd dest false with
  | error e =>
    rw [hwalk] at hdest
    exact ⟨_, .destStop hwalk, hdest.bind_error⟩
  | ok found =>
    rw [hwalk] at hdest
    cases found with
    | none =>
      refine ⟨_, .destMissing hwalk, hdest.bind fun s₁ hs₁ hv₁ => ?_⟩
      exact (iunlockput_take hs₁ hv₁ hv (hfree S)).bind fun s₂ hs₂ hv₂ => .pure hs₂ hv₂
    | some p =>
      obtain ⟨D, m⟩ := p
      refine hdest.bind_exists fun s₁ hs₁ hv₁ => ?_
      have hpos : 0 < ((v.take S).take D).ref D := (hv.take S).take_ref_pos
      by_cases hDS : D = S
      · subst hDS
        exact ⟨_, .destSame hwalk, (ilock_held hv₁ hpos Store.take_locked_self).bind_error⟩
      · have hD : (v.take S).locked D = false := (Store.take_locked_of_ne hDS).trans (hfree D)
        by_cases hn : v.node D = .free
        · exact ⟨_, .destFree hwalk hDS hn, (ilock_free hs₁ hv₁ hpos hD hn).bind_error⟩
        · refine (ilock_ends hs₁ hv₁ hpos hD hn).bind_exists fun s₂ hs₂ hv₂ => ?_
          cases hdir : (v.node D).isDir with
          | false => exact ⟨_, .destNotDir hwalk hDS hn hdir, (dirlink_not_dir hv₂ hdir).bind_error⟩
          | true =>
            obtain ⟨entries, hentries⟩ := exists_entries hdir
            obtain ⟨r, hr, hends⟩ := moveInto_ends hfree hs₂ hv hcwd hv₂ hDS hentries hres
            exact ⟨r, .into hwalk hDS hentries hr, hends⟩

theorem sysMoveFile_ends (src dest : Str) (hs : Sound s) (hfree : ∀ i, s.locked i = false)
    (hcwd : 0 < s.ref cwd) :
    ∃ r, Moves s.toStore cwd src dest r ∧ Ends (sysMoveFile cwd src dest) s r := by
  have hv : s.toStore.Pinned := hs.toPinned
  have hsrc : Ends (namei cwd src) s _ := namei_ends hs rfl hcwd
  cases hwalk : s.walkPath cwd src false with
  | error e =>
    rw [hwalk] at hsrc
    exact ⟨_, .srcStop hwalk, hsrc.bind_error⟩
  | ok found =>
    rw [hwalk] at hsrc
    cases found with
    | none => exact ⟨_, .srcMissing hwalk, hsrc.bind fun s₁ hs₁ hv₁ => .pure hs₁ hv₁⟩
    | some p =>
      obtain ⟨S, m⟩ := p
      refine hsrc.bind_exists fun s₁ hs₁ hv₁ => ?_
      by_cases hn : s.node S = .free
      · exact ⟨_, .srcFree hwalk hn, (ilock_free hs₁ hv₁ hv.take_ref_pos (hfree S) hn).bind_error⟩
      · have hres : s.resolve (Store.start cwd src) (elems src) = some S :=
          resolve_of_walk (fun _ _ => rfl) (walk_of_walkPath hwalk)
        refine (ilock_ends hs₁ hv₁ hv.take_ref_pos (hfree S) hn).bind_exists fun s₂ hs₂ hv₂ => ?_
        obtain ⟨r, hr, hends⟩ := moveFrom_ends hfree hs₂ hv hcwd hv₂ hres
        exact ⟨r, .go hwalk hn hr, hends⟩

end Endings

end Xv6.Fs
