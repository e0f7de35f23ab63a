import Mathlib.Algebra.Order.Pi
import Xv6.Fs.Sysfile

namespace Xv6.Fs

open Function Lib Prog

variable {n : Nat} {L : Fin n → Bool} {R : Fin n → Int} {i : Fin n}

structure Holds (L : Fin n → Bool) (R : Fin n → Int) (s : State n) : Prop where
  sound : Sound s
  locked : s.locked = L
  ref : s.ref = R

def State.load (s : State n) (i : Fin n) : State n :=
  { s with toStore := s.setLocked i true, valid := update s.valid i true }

structure Fresh (i : Fin n) (L : Fin n → Bool) (R : Fin n → Int) (s : State n) : Prop where
  load : Sound (s.load i)
  locked : s.locked = L
  ref : s.ref = R

section Operations

theorem ilock_eq_ok (h : ilock i s = .ok ((), s')) :
    s' = s.load i ∧ 1 ≤ s.ref i ∧ s.locked i = false ∧ (s.valid i = false → s.node i ≠ .free) := by
  change (if s.ref i < 1 then panics "ilock"
    else if s.locked i then throw (.ilockHeld i)
    else if s.valid i = false ∧ s.node i = .free then panics "ilock: no type"
    else set (s.load i) : M n Unit) s = .ok ((), s') at h
  split at h
  case isTrue => cases h
  case isFalse href =>
    split at h
    case isTrue => cases h
    case isFalse hlocked =>
      split at h
      case isTrue => cases h
      case isFalse hfree =>
        cases h
        exact ⟨rfl, not_lt.mp href, by simpa using hlocked, fun hv hn => hfree ⟨hv, hn⟩⟩

theorem Holds.of_store (hs : Sound s) (hv : s.toStore = v)
    (hl : v.locked = L) (hr : v.ref = R) : Holds L R s := by
  subst hv
  exact ⟨hs, hl, hr⟩

theorem Holds.swap (hij : i ≠ j)
    (h : Holds (update (update L i a) j b) (R + x + y) s) :
    Holds (update (update L j b) i a) (R + y + x) s := by
  rwa [update_comm hij, add_right_comm] at h

theorem Holds.swap_ref (h : Holds L (R + x + y) s) :
    Holds L (R + y + x) s := by
  rwa [add_right_comm] at h

theorem ilock_holds :
    Triple (Holds L R) (ilock i) fun _ s => L i = false ∧ Holds (update L i true) R s := by
  rintro s ⟨⟩ s' ⟨hs, rfl, rfl⟩ hx
  obtain ⟨-, hpos, hfree, hnode⟩ := ilock_eq_ok hx
  have hn : s.node i ≠ .free := by
    cases hv : s.valid i with
    | false => exact hnode hv
    | true => exact hs.loaded i (by omega) hv
  obtain ⟨-, hv, hs'⟩ := (ilock_ends hs rfl (by omega) hfree hn).of_ok hx
  exact ⟨hfree, .of_store hs' hv rfl rfl⟩

theorem ilock_fresh :
    Triple (Fresh i L R) (ilock i) fun _ s => L i = false ∧ Holds (update L i true) R s := by
  rintro s ⟨⟩ s' ⟨hs, rfl, rfl⟩ hx
  obtain ⟨rfl, -, hfree, -⟩ := ilock_eq_ok hx
  exact ⟨hfree, hs, rfl, rfl⟩

theorem iunlock_holds (hl : L i = false) :
    Triple (Holds (update L i true) R) (iunlock i) fun _ => Holds L R := by
  rintro s ⟨⟩ s' ⟨hs, hlocked, rfl⟩ hx
  have hheld : s.locked i = true := by rw [hlocked, update_self]
  obtain ⟨-, hv, hs'⟩ := (iunlock_ends hs rfl hheld).of_ok hx
  refine .of_store hs' hv ?_ rfl
  change update s.locked i false = L
  rw [hlocked, update_idem, ← hl, update_eq_self]

theorem iput_holds (hR : 0 ≤ R) :
    Triple (Holds L (R + Pi.single i 1)) (iput i) fun _ => Holds L R := by
  rintro s ⟨⟩ s' ⟨hs, rfl, href⟩ hx
  cases hl : s.locked i with
  | true => exact absurd hx (iput_held rfl hl).ne_ok
  | false =>
    have hpos : 0 < s.ref i := by
      have := hR i
      rw [href, Pi.add_apply, Pi.single_eq_same]
      exact Int.lt_add_one_of_le this
    obtain ⟨-, hv, hs'⟩ := (iput_ends hs rfl hpos hl).of_ok hx
    refine .of_store hs' hv (Store.drop_locked _ _) ?_
    rw [Store.drop_ref, href, add_assoc, ← Pi.single_add, add_neg_cancel, Pi.single_zero, add_zero]

theorem iunlockput_holds (hl : L i = false) (hR : 0 ≤ R) :
    Triple (Holds (update L i true) (R + Pi.single i 1)) (iunlockput i)
      fun _ => Holds L R := by
  refine (iunlock_holds (L := L) hl).bind fun _ => iput_holds hR

theorem idup_holds (hpos : 0 < R i) :
    Triple (Holds L R) (idup i) fun j s => j = i ∧ Holds L (R + Pi.single i 1) s := by
  rintro s j s' ⟨hs, rfl, rfl⟩ hx
  obtain ⟨hj, hv, hs'⟩ := (idup_ends hs rfl hpos).of_ok hx
  exact ⟨hj, .of_store hs' hv rfl rfl⟩

theorem Sound.write (hs : Sound s) (hl : s.locked i)
    (hx : x ≠ .free) (hsize : x.entries.length ≤ maxDirents) :
    Sound { s with toStore := (s.setNode i x).setNlink i k } := by
  obtain ⟨hpos, hvalid⟩ := hs.held i hl
  refine hs.of_agree (fun j hj => ?_) (.of_loaded hpos hvalid ?_ ?_)
  · simp [Store.setNode, Store.setNlink, hj]
  · simpa [Store.setNode, Store.setNlink] using hx
  · simpa [Store.setNode, Store.setNlink] using hsize

theorem Sound.node_of_locked (hs : Sound s) (hl : s.locked i) : s.node i ≠ .free :=
  hs.loaded i (hs.held i hl).1 (hs.held i hl).2

theorem addNlink_holds (hl : L i = true) :
    Triple (Holds L R) (addNlink i k) fun _ => Holds L R := by
  rintro s ⟨⟩ s' ⟨hs, rfl, rfl⟩ hx
  cases hx
  have hwrite := hs.write (k := s.nlink i + k) hl (hs.node_of_locked hl) (hs.sized i)
  rw [show s.setNode i (s.node i) = s.toStore by simp [Store.setNode]] at hwrite
  exact ⟨hwrite, rfl, rfl⟩

theorem initInode_holds (hl : L i = true) :
    Triple (Holds L R) (initInode i major minor) fun _ => Holds L R := by
  rintro s ⟨⟩ s' ⟨hs, rfl, rfl⟩ hx
  cases hx
  refine ⟨hs.write hl (Node.setDevice_ne_free (hs.node_of_locked hl)) ?_, rfl, rfl⟩
  rw [Node.entries_setDevice]
  exact hs.sized i

theorem iget_eq_ok (h : iget i s = .ok (j, s')) (href : 0 ≤ s.ref i) :
    j = i ∧ s'.toStore = s.addRef i 1 ∧ ∀ k, k ≠ i → s'.valid k = s.valid k := by
  by_cases hpos : 0 < s.ref i
  · have higet : iget i s = .ok (i, { s with toStore := s.addRef i 1 }) := by
      change (if 0 < s.ref i then _ else _ : M n (Fin n)) s = _
      rw [if_pos hpos]
      rfl
    rw [higet] at h
    cases h
    exact ⟨rfl, rfl, fun _ _ => rfl⟩
  · by_cases hslot : s.cached < ninode
    · have higet : iget i s =
          .ok (i, { s with
            ref := update s.ref i 1, valid := update s.valid i false }) := by
        change (if 0 < s.ref i then _ else if s.cached < ninode then _ else _ : M n (Fin n)) s = _
        rw [if_neg hpos, if_pos hslot]
        rfl
      rw [higet] at h
      cases h
      refine ⟨rfl, ?_, fun k hk => update_of_ne hk _ _⟩
      rw [Store.update_ref_one (le_antisymm (not_lt.mp hpos) href)]
      rfl
    · exact absurd h (iget_full rfl (not_or.mpr ⟨hpos, hslot⟩)).ne_ok

variable [NeZero n]

theorem ialloc_fresh :
    Triple (Holds L R) (ialloc type) fun i => Fresh i L (R + Pi.single i 1) := by
  refine .get fun s hheld => ?_
  obtain ⟨hs, rfl, rfl⟩ := hheld
  cases hfind : (List.finRange n).find? fun i => decide (i ≠ 0 ∧ s.node i = .free) with
  | none => exact .throw
  | some inum =>
    rintro s₀ i s' - hx
    obtain ⟨rfl, hstore, hvalid⟩ := iget_eq_ok hx (hs.ref_nonneg inum)
    refine ⟨hs.of_agree (i := i) (fun j hj => ?_) (.of_loaded ?_ (update_self _ _ _) ?_ ?_),
      ?_, ?_⟩
    · rw [State.load, hstore]
      exact ⟨update_of_ne hj _ _, update_of_ne hj _ _, Store.addRef_ref_of_ne _ _ hj,
        Store.setLocked_of_ne _ _ hj, (update_of_ne hj _ _).trans (hvalid j hj)⟩
    · have := hs.ref_nonneg i
      rw [State.load, hstore]
      change 0 < (Store.addRef _ i 1).ref i
      rw [Store.addRef_ref_self]
      change 0 < s.ref i + 1
      omega
    · rw [State.load, hstore]
      simp [Store.setNode, Store.setNlink, InodeType.node_ne_free]
    · rw [State.load, hstore]
      simp [Store.setNode, Store.setNlink, InodeType.entries_node]
    · rw [hstore]
      rfl
    · rw [hstore]
      rfl

def plus (R : Fin n → Int) : Option (Fin n) → Fin n → Int
  | none => R
  | some j => R + Pi.single j 1

variable {dp inum cwd : Fin n} {name path : Str}

theorem dirlookup_holds : Triple (Holds L R) (dirlookup dp name) fun r =>
    Holds L (plus R (r.map Prod.snd)) := by
  rintro s r s' ⟨hs, rfl, rfl⟩ hx
  cases hdir : (s.node dp).isDir with
  | false => exact absurd hx (dirlookup_not_dir rfl hdir).ne_ok
  | true =>
    obtain ⟨entries, hentries⟩ := exists_entries hdir
    cases hfind : findEntry name entries with
    | none =>
      obtain ⟨rfl, hv, hs'⟩ := (dirlookup_miss hs rfl hentries hfind).of_ok hx
      exact .of_store hs' hv rfl rfl
    | some hit =>
      obtain ⟨off, j⟩ := hit
      by_cases hslot : s.HasSlot j
      · obtain ⟨rfl, hv, hs'⟩ := (dirlookup_hit hs rfl hentries hfind hslot).of_ok hx
        exact .of_store hs' hv rfl rfl
      · exact absurd hx (dirlookup_full rfl hentries hfind hslot).ne_ok

omit [NeZero n] in
theorem writeDirent_holds :
    Triple (Holds L R) (writeDirent dp off de) fun _ => Holds L R := by
  rintro s r s' ⟨hs, rfl, rfl⟩ hx
  cases hdir : (s.node dp).isDir with
  | false =>
    obtain ⟨-, hv, hs'⟩ := (writeDirent_not_dir hs rfl hdir).of_ok hx
    exact .of_store hs' hv rfl rfl
  | true =>
    obtain ⟨entries, hentries⟩ := exists_entries hdir
    by_cases hout : entries.length < off ∨ maxDirents < off + 1
    · obtain ⟨-, hv, hs'⟩ := (writeDirent_outside hs rfl hentries hout).of_ok hx
      exact .of_store hs' hv rfl rfl
    · by_cases hblocks : newBlocks entries off ≤ s.freeBlocks
      · obtain ⟨-, hv, hs'⟩ := (writeDirent_ends hs rfl hentries (by omega) (by omega) hblocks).of_ok hx
        exact .of_store hs' hv rfl rfl
      · exact absurd hx
          (writeDirent_no_block rfl hentries (by omega) (by omega) (not_le.mp hblocks)).ne_ok

theorem dirlink_holds : Triple (Holds L R) (dirlink dp name inum) fun _ => Holds L R := by
  rintro s r s' ⟨hs, rfl, rfl⟩ hx
  cases hdir : (s.node dp).isDir with
  | false => exact absurd hx (dirlink_not_dir rfl hdir).ne_ok
  | true =>
    obtain ⟨entries, hentries⟩ := exists_entries hdir
    cases hfind : findEntry name entries with
    | none =>
      by_cases hmax : freeEntry entries < maxDirents
      · by_cases hblocks : newBlocks entries (freeEntry entries) ≤ s.freeBlocks
        · obtain ⟨-, hv, hs'⟩ := (dirlink_ends hs rfl hentries hfind hmax hblocks).of_ok hx
          exact .of_store hs' hv rfl rfl
        · exact absurd hx (dirlink_no_block hs rfl hentries hfind hmax (not_le.mp hblocks)).ne_ok
      · exact absurd hx (dirlink_long hs rfl hentries hfind (not_lt.mp hmax)).ne_ok
    | some hit =>
      obtain ⟨off, j⟩ := hit
      by_cases hslot : s.HasSlot j
      · cases hl : s.locked j with
        | true => exact absurd hx (dirlink_hit_held hs rfl hentries hfind hslot hl).ne_ok
        | false =>
          obtain ⟨-, hv, hs'⟩ := (dirlink_hit hs rfl hentries hfind hslot hl).of_ok hx
          exact .of_store hs' hv rfl rfl
      · exact absurd hx (dirlink_hit_full rfl hentries hfind hslot).ne_ok

theorem namex_holds (hcwd : 0 < R cwd) : Triple (Holds L R) (namex cwd path parent)
    fun r => Holds L (plus R (r.map Prod.fst)) := by
  rintro s r s' ⟨hs, rfl, rfl⟩ hx
  have hends : Ends (namex cwd path parent) s _ := namex_ends hs rfl hcwd
  cases hwalk : s.walkPath cwd path parent with
  | error e =>
    rw [hwalk] at hends
    exact absurd hx hends.ne_ok
  | ok found =>
    rw [hwalk] at hends
    obtain ⟨rfl, hv, hs'⟩ := hends.of_ok hx
    cases r with
    | none => exact .of_store hs' hv rfl rfl
    | some p => exact .of_store hs' hv rfl rfl

theorem namei_holds (hcwd : 0 < R cwd) :
    Triple (Holds L R) (namei cwd path) fun r => Holds L (plus R r) :=
  (namex_holds hcwd).bind fun _ => .pure fun _ h => h

theorem nameiparent_holds (hcwd : 0 < R cwd) : Triple (Holds L R) (nameiparent cwd path)
    fun r => Holds L (plus R (r.map Prod.fst)) :=
  namex_holds hcwd

end Operations

section Calls

variable [NeZero n] {cwd dp ip : Fin n} {path : Str}

def noLocks : Fin n → Bool := fun _ => false

omit [NeZero n] in
theorem two_locks (h : update noLocks dp true ip = false) :
    dp ≠ ip ∧ update (update noLocks dp true) ip true dp = true ∧
      update noLocks ip true dp = false := by
  have hne : dp ≠ ip := by
    rintro rfl
    simp at h
  refine ⟨hne, ?_, ?_⟩
  · rw [update_of_ne hne, update_self]
  · rw [update_of_ne hne]
    rfl

variable (hcwd : 0 < R cwd) (hR : 0 ≤ R)

omit [NeZero n] in
theorem le_add_single (R : Fin n → Int) (j : Fin n) : R ≤ R + Pi.single j 1 :=
  le_add_of_nonneg_right (Pi.single_nonneg.mpr zero_le_one)

include hcwd hR in
theorem sysLink_holds :
    Triple (Holds noLocks R) (sysLink cwd old new) fun _ => Holds noLocks R := by
  have hbad (ip : Fin n) : Triple (Holds noLocks (R + Pi.single ip 1)) (do
      ilock ip
      addNlink ip (-1)
      iunlockput ip
      return (-1 : Int)) fun _ => Holds noLocks R := by
    refine ilock_holds.bind fun _ => .and_left fun hl => ?_
    refine (addNlink_holds (update_self _ _ _)).bind fun _ => ?_
    exact (iunlockput_holds hl hR).bind fun _ => .pure fun _ h => h
  refine (namei_holds hcwd).bind fun r => ?_
  cases r with
  | none => exact .pure fun _ h => h
  | some ip =>
    refine ilock_holds.bind fun _ => .and_left fun hl => .get fun s _ => .ite (fun _ => ?_) fun _ => ?_
    · exact (iunlockput_holds hl hR).bind fun _ => .pure fun _ h => h
    · refine (addNlink_holds (update_self _ _ _)).bind fun _ => ?_
      refine (iunlock_holds hl).bind fun _ => ?_
      have hR₁ : 0 ≤ R + Pi.single ip 1 := hR.trans (le_add_single R ip)
      refine (nameiparent_holds (hcwd.trans_le (le_add_single R ip cwd))).bind fun r => ?_
      cases r with
      | none => exact hbad ip
      | some p =>
        obtain ⟨dp, name⟩ := p
        refine ilock_holds.bind fun _ => .and_left fun hdp => dirlink_holds.bind fun r => ?_
        refine .ite (fun _ => ?_) fun _ => ?_
        · exact (iunlockput_holds hdp hR₁).bind fun _ => hbad ip
        · exact (iunlockput_holds hdp hR₁).bind fun _ => (iput_holds hR).bind fun _ => .pure fun _ h => h

include hcwd hR in
theorem sysUnlink_holds : Triple (Holds noLocks R) (sysUnlink cwd path) fun _ => Holds noLocks R := by
  refine (nameiparent_holds hcwd).bind fun r => ?_
  cases r with
  | none => exact .pure fun _ h => h
  | some p =>
    obtain ⟨dp, name⟩ := p
    have hR₁ : 0 ≤ R + Pi.single dp 1 := hR.trans (le_add_single R dp)
    refine ilock_holds.bind fun _ => .and_left fun hdp => .ite (fun _ => ?_) fun _ => ?_
    · exact (iunlockput_holds hdp hR).bind fun _ => .pure fun _ h => h
    · refine dirlookup_holds.bind fun r => ?_
      cases r with
      | none => exact (iunlockput_holds hdp hR).bind fun _ => .pure fun _ h => h
      | some hit =>
        obtain ⟨off, ip⟩ := hit
        refine ilock_holds.bind fun _ => .and_left fun hip => .get fun s _ => ?_
        refine .ite (fun _ => .throw) fun _ => .ite (fun _ => ?_) fun _ => ?_
        · refine (iunlockput_holds hip hR₁).bind fun _ => ?_
          exact (iunlockput_holds hdp hR).bind fun _ => .pure fun _ h => h
        · refine writeDirent_holds.bind fun r => .ite (fun _ => .throw) fun _ => ?_
          obtain ⟨hne, hdp₁, hdp₂⟩ := two_locks hip
          refine (Triple.ite (fun _ => addNlink_holds hdp₁) fun _ => .pure fun _ h => h).bind fun _ => ?_
          refine ((iunlockput_holds hdp₂ (hR.trans (le_add_single R ip))).pre fun _ => .swap hne).bind
            fun _ => ?_
          refine (addNlink_holds (update_self _ _ _)).bind fun _ => ?_
          exact (iunlockput_holds rfl hR).bind fun _ => .pure fun _ h => h

theorem createDots_holds (hdp : L dp = true) :
    Triple (Holds L R) (createDots type ip dp) fun _ => Holds L R := by
  refine .ite (fun _ => ?_) fun _ => .pure fun _ h => h
  refine (addNlink_holds hdp).bind fun _ => ?_
  refine dirlink_holds.bind fun _ => .ite (fun _ => .throw) fun _ => ?_
  exact dirlink_holds.bind fun _ => .ite (fun _ => .throw) fun _ => .pure fun _ h => h

def lockedBy (L : Fin n → Bool) : Option (Fin n) → Fin n → Bool
  | none => L
  | some j => update L j true

include hcwd hR in
theorem create_holds :
    Triple (Holds noLocks R) (create cwd path type major minor) fun r =>
      Holds (lockedBy noLocks r) (plus R r) := by
  refine (nameiparent_holds hcwd).bind fun r => ?_
  cases r with
  | none => exact .pure fun _ h => h
  | some p =>
    obtain ⟨dp, name⟩ := p
    refine ilock_holds.bind fun _ => .and_left fun hdp => dirlookup_holds.bind fun r => ?_
    cases r with
    | some hit =>
      obtain ⟨off, ip⟩ := hit
      refine ((iunlockput_holds hdp (hR.trans (le_add_single R ip))).pre fun _ => .swap_ref).bind
        fun _ => ?_
      refine ilock_holds.bind fun _ => .and_left fun hip => .get fun s _ => ?_
      refine .ite (fun _ => ?_) fun _ => ?_
      · exact .pure fun _ h => h
      · exact (iunlockput_holds hip hR).bind fun _ => .pure fun _ h => h
    | none =>
      refine ialloc_fresh.bind fun ip => ilock_fresh.bind fun _ => .and_left fun hip => ?_
      obtain ⟨hne, hdp₁, hdp₂⟩ := two_locks hip
      refine (initInode_holds (update_self _ _ _)).bind fun _ => ?_
      refine (createDots_holds hdp₁).bind fun _ => ?_
      refine dirlink_holds.bind fun _ => .ite (fun _ => .throw) fun _ => ?_
      refine ((iunlockput_holds hdp₂ (hR.trans (le_add_single R ip))).pre fun _ => .swap hne).bind
        fun _ => ?_
      exact .pure fun _ h => h

include hcwd hR in
theorem makeNode_holds :
    Triple (Holds noLocks R) (makeNode cwd path type major minor) fun _ => Holds noLocks R := by
  refine (create_holds hcwd hR).bind fun r => ?_
  cases r with
  | none => exact .pure fun _ h => h
  | some ip => exact (iunlockput_holds rfl hR).bind fun _ => .pure fun _ h => h

include hcwd hR in
theorem openInode_holds :
    Triple (Holds noLocks R) (openInode cwd path omode) fun r =>
      Holds (lockedBy noLocks r) (plus R r) := by
  refine .ite (fun _ => create_holds hcwd hR) fun _ => (namei_holds hcwd).bind fun r => ?_
  cases r with
  | none => exact .pure fun _ h => h
  | some ip =>
    refine ilock_holds.bind fun _ => .and_left fun hip => .get fun s _ => .ite (fun _ => ?_) fun _ => ?_
    · exact (iunlockput_holds hip hR).bind fun _ => .pure fun _ h => h
    · exact .pure fun _ h => h

include hcwd hR in
theorem exec_holds :
    Triple (Holds noLocks R) (exec cwd path loads starts) fun _ => Holds noLocks R := by
  refine (namei_holds hcwd).bind fun r => ?_
  cases r with
  | none => exact .pure fun _ h => h
  | some ip =>
    refine ilock_holds.bind fun _ => .and_left fun hip => .ite (fun _ => ?_) fun _ => ?_
    · exact (iunlockput_holds hip hR).bind fun _ => .pure fun _ h => h
    · refine (iunlockput_holds hip hR).bind fun _ => .ite (fun _ => ?_) fun _ => ?_
      · exact .pure fun _ h => h
      · exact .pure fun _ h => h

end Calls

end Xv6.Fs
