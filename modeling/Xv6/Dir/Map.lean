import Xv6.Dir.Lookup

namespace Xv6.Dir

open Function Lib Disk Fs Prog

variable {sb : Superblock} {s t : State sb} {i : Fin sb.ninodes} {name : Str} {n : Nat}

structure Directory (s : State sb) (i : Fin sb.ninodes) : Prop extends Readable s i where
  inv : Inv s.store
  valid : (s.store.icache i).isSome
  referenced : ∃ k, s.Caches (BitVec.ofNat 32 i) k
  distinct : Slots.Distinct (s.slots i)

theorem Readable.congr (h : Readable s i) (hdisk : t.store.disk = s.store.disk)
    (hinode : t.store.inode i = s.store.inode i) : Readable t i :=
  ⟨by rw [hinode]; exact h.type, h.full.congr hdisk hinode, by rw [hinode]; exact h.whole⟩

theorem Got.store_same (hg : Got s inum k t)
    (hreferenced : ∃ k, s.Caches (BitVec.ofNat 32 i) k) :
    t.store.disk = s.store.disk ∧ t.store.icache i = s.store.icache i := by
  rcases hg.store with hstore | ⟨hnone, hstore⟩
  · rw [hstore]
    exact ⟨rfl, rfl⟩
  rw [hstore]
  cases hj : (inodeOf inum : Option (Fin sb.ninodes)) with
  | none => exact ⟨rfl, rfl⟩
  | some j =>
    refine ⟨rfl, update_of_ne ?_ ..⟩
    rintro rfl
    unfold inodeOf at hj
    split at hj
    · cases hj
      obtain ⟨l, hl⟩ := hreferenced
      rw [BitVec.ofNat_toNat, BitVec.setWidth_eq] at hl
      exact hnone l hl
    · cases hj

theorem Got.inv (hg : Got s inum k t) (h : Inv s.store) : Inv t.store := by
  rcases hg.store with hstore | ⟨-, hstore⟩
  · rw [hstore]
    exact h
  rw [hstore]
  cases (inodeOf inum : Option (Fin sb.ninodes)) with
  | none => exact h
  | some j => exact h.forget j

section got

variable {k : Fin ninode} (h : Directory s i) (hg : Got s inum k t)

include h hg

theorem Got.inode : t.store.inode i = s.store.inode i := by
  obtain ⟨hdisk, hicache⟩ := hg.store_same h.referenced
  rw [Disk.Store.inode, Disk.Store.inode, hicache, hdisk]

theorem Got.contents : t.store.contents i = s.store.contents i :=
  Disk.Store.contents_congr (hg.store_same h.referenced).1 (hg.inode h)

theorem Got.directory : Directory t i where
  toReadable := h.toReadable.congr (hg.store_same h.referenced).1 (hg.inode h)
  inv := hg.inv h.inv
  valid := by rw [(hg.store_same h.referenced).2]; exact h.valid
  referenced := h.referenced.imp fun k hk => hg.caches _ k hk
  distinct := by
    rw [State.slots, hg.contents h]
    exact h.distinct

end got

theorem Wrote.slots {v : Disk.Store sb} {de : Dirent} (hw : Wrote s.store i de.byte (16 * n) 16 v) (h : Readable s i)
    (hn : n ≤ (s.slots i).length) (hname : de.name.length = dirsiz) :
    slotsOf (v.contents i) = Slots.put (s.slots i) n de.slot := by
  rw [hw.contents, slotsOf_overwrite, Dirent.ofBytes_byte hname]
  · rfl
  · rw [Disk.Store.length_contents]
    exact h.whole
  · rwa [← length_slotsOf]

theorem Wrote.directory {v : Disk.Store sb} {de : Dirent} (hw : Wrote s.store i de.byte (16 * n) 16 v) (h : Directory s i)
    (hdistinct : Slots.Distinct (slotsOf (v.contents i))) : Directory { s with store := v } i where
  type := by
    dsimp only
    rw [Inode.type, hw.typeMajor]
    exact h.type
  full := hw.full
  whole := by
    have hwhole := h.whole
    dsimp only
    rw [hw.size]
    omega
  inv := hw.inv
  valid := hw.locked
  referenced := h.referenced
  distinct := hdistinct

def Fits (s : State sb) (i : Fin sb.ninodes) (n : Nat) : Prop :=
  16 * n + 16 ≤ 71680 ∧ (s.store.missing (needed i (16 * n) 16)).card ≤ s.store.freeCount

theorem Readable.fits (h : Readable s i) (hn : n < (s.slots i).length) : Fits s i n := by
  have hsize := h.full.size
  rw [State.length_slots] at hn
  have hnone : s.store.missing (needed i (16 * n) 16) = ∅ :=
    missing_needed_eq_empty fun bn hbn => h.full.block bn (by omega)
  refine ⟨by omega, ?_⟩
  rw [hnone]
  exact Nat.zero_le _

section write

variable (h : Directory s i) (hn : n ≤ (s.slots i).length) (de : Dirent)

include h hn

theorem refused_iff_fits : Refused s.store i (BitVec.ofNat 32 (16 * n)) 16 ↔ 71680 < 16 * n + 16 := by
  have hsize := h.full.size
  rw [Refused, h.toNat_off hn, show (16 : Word).toNat = 16 from rfl]
  rw [State.length_slots] at hn
  omega

theorem writeEntry_fits (hfits : Fits s i n) :
    ∃ v, writeEntry i (BitVec.ofNat 32 (16 * n)) de s = .ok (some 16, { s with store := v }) ∧
      Wrote s.store i de.byte (16 * n) 16 v := by
  have hok : ¬Refused s.store i (BitVec.ofNat 32 (16 * n)) 16 := fun hbad =>
    absurd ((refused_iff_fits h hn).mp hbad) (Nat.not_lt.mpr hfits.1)
  have hoff := h.toNat_off hn
  have hwrite := writei_writes de.byte h.inv h.valid h.type_ne h.full hok
  rw [hoff] at hwrite
  obtain ⟨r, v, hrun, rfl, hw⟩ := hwrite.exists_ok fun e he => absurd hfits.2 (Nat.not_le.mpr he.2)
  exact ⟨v, onStore_ok hrun, hw⟩

theorem writeEntry_stops (hfits : ¬Fits s i n) :
    writeEntry i (BitVec.ofNat 32 (16 * n)) de s = .ok (none, s) ∨
      ∃ e, writeEntry i (BitVec.ofNat 32 (16 * n)) de s = .error e := by
  by_cases hbad : Refused s.store i (BitVec.ofNat 32 (16 * n)) 16
  · exact .inl (onStore_ok (writei_refused h.type_ne hbad de.byte))
  · refine .inr ?_
    have hmax : 16 * n + 16 ≤ 71680 := Nat.le_of_not_lt fun hlt => hbad ((refused_iff_fits h hn).mpr hlt)
    have hshort : s.store.freeCount < (s.store.missing (needed i (BitVec.ofNat 32 (16 * n)).toNat 16)).card := by
      rw [h.toNat_off hn]
      exact Nat.lt_of_not_le fun hle => hfits ⟨hmax, hle⟩
    obtain ⟨e, he⟩ := writei_short de.byte h.inv h.valid h.type_ne h.full hbad hshort
    exact ⟨.disk e, onStore_error he⟩

end write

def Present (s : State sb) (i : Fin sb.ninodes) (name : Str) : Prop :=
  ∃ (n : Nat) (inum : BitVec 16), (s.slots i)[n]? = some (some (nameKey name, inum))

theorem find_eq_none_iff_absent : Slots.find (nameKey name) (s.slots i) = none ↔ ¬Present s i name := by
  rw [Slots.find_eq_none_iff]
  exact ⟨fun h hp => hp.elim fun n hn => hn.elim fun v hv => h n v hv, fun h n v hv => h ⟨n, v, hv⟩⟩

theorem gives_isSome_iff (h : Readable s i) (hr : gives s i name = .ok r) :
    r.isSome ↔ Present s i name := by
  rw [gives_eq h] at hr
  cases hfind : Slots.find (nameKey name) (s.slots i) with
  | none =>
    rw [hfind] at hr
    cases hr
    exact iff_of_false (by rintro ⟨⟩) (find_eq_none_iff_absent.mp hfind)
  | some q =>
    rw [hfind] at hr
    dsimp only at hr
    split at hr
    · cases hr
      exact iff_of_true rfl (by_contra fun habsent => by rw [find_eq_none_iff_absent.mpr habsent] at hfind; cases hfind)
    · cases hr

theorem State.entryFor_congr (h : t.cache = s.cache) (inum : Word) : t.entryFor inum = s.entryFor inum := by
  obtain ⟨_, _⟩ := s
  obtain ⟨_, _⟩ := t
  cases h
  rfl

theorem gives_congr (h : Readable s i) (h' : Readable t i) (hcache : t.cache = s.cache)
    (hfind : Slots.find (nameKey name) (t.slots i) = Slots.find (nameKey name) (s.slots i)) :
    gives t i name = gives s i name := by
  rw [gives_eq h, gives_eq h', hfind]
  cases Slots.find (nameKey name) (s.slots i) with
  | none => rfl
  | some r => simp only [State.entryFor_congr hcache]

structure Linked (s : State sb) (i : Fin sb.ninodes) (name : Str) (inum : Word) (t : State sb) : Prop where
  directory : Directory t i
  found : ∃ off, gives t i name = .ok (some (inum, off))
  other : ∀ name', nameKey name' ≠ nameKey name → gives t i name' = gives s i name'
  placed : t.slots i = Slots.put (s.slots i) (Slots.firstFree (s.slots i)) (some (nameKey name, inum.setWidth 16))

structure LinksRight (s : State sb) (i : Fin sb.ninodes) (name : Str) (inum : Word) : Prop where
  present : Present s i name → ∃ t, dirlink i name inum s = .ok (-1, t) ∧
    t.store.inode i = s.store.inode i ∧ t.store.contents i = s.store.contents i
  absent : ¬Present s i name → ∃ t, dirlink i name inum s = .ok (0, t) ∧ Linked s i name inum t

/-- When it can: the inode that has the name already is not locked by the caller; a new number
is one that an entry can hold, and there is room for the entry; and there is an entry of the
inode cache for the inode. -/
structure CanLink (s : State sb) (i : Fin sb.ninodes) (name : Str) (inum : Word) : Prop where
  present : ∀ n j, Slots.find (nameKey name) (s.slots i) = some (n, j) →
    ∃ k, s.entryFor (j.setWidth 32) = some k ∧ (s.cache k).locked = false
  absent : ¬Present s i name → inum.toNat < 2 ^ 16 ∧ (s.entryFor inum).isSome ∧
    Fits s i (Slots.firstFree (s.slots i))

structure Removes (s : State sb) (i : Fin sb.ninodes) (name : Str) (off : Word) (t : State sb) : Prop where
  write : clearEntry i off s = .ok (some 16, t)
  directory : Directory t i
  gone : gives t i name = .ok none
  other : ∀ name', nameKey name' ≠ nameKey name → gives t i name' = gives s i name'

section results

variable {inum : Word} (h : Directory s i)

include h

theorem dirlink_present (hfind : Slots.find (nameKey name) (s.slots i) = some (n, j)) :
    (∃ t, dirlink i name inum s = .ok (-1, t) ∧ t.store.inode i = s.store.inode i ∧
        t.store.contents i = s.store.contents i) ↔
      ∃ k, s.entryFor (j.setWidth 32) = some k ∧ (s.cache k).locked = false := by
  have hlookup := dirlookup_eq h.toReadable name
  rw [hfind, result] at hlookup
  cases hentry : s.entryFor (j.setWidth 32) with
  | none =>
    have hstop : dirlink i name inum s = .error .igetNoInodes :=
      bind_error (hlookup.trans (bind_error (iget_none hentry)))
    refine iff_of_false ?_ (by rintro ⟨_, ⟨⟩, -⟩)
    rintro ⟨t, ht, -⟩
    rw [hstop] at ht
    cases ht
  | some k =>
    obtain ⟨u, hget, hg⟩ := iget_got hentry
    rw [bind_ok hget] at hlookup
    have hput : dirlink i name inum s = (iput k >>= fun _ => pure (-1)) u := bind_ok hlookup
    have hiput := hg.iput
    by_cases hlocked : (s.cache k).locked
    · rw [if_pos hlocked] at hiput
      rw [bind_error hiput] at hput
      refine iff_of_false ?_ ?_
      · rintro ⟨t, ht, -⟩
        rw [hput] at ht
        cases ht
      · rintro ⟨_, ⟨⟩, hfree⟩
        rw [hlocked] at hfree
        cases hfree
    · rw [if_neg hlocked] at hiput
      rw [bind_ok hiput] at hput
      have hinode := hg.inode h
      have hcontents := hg.contents h
      exact iff_of_true ⟨_, hput, hinode, hcontents⟩ ⟨k, rfl, by simpa using hlocked⟩

theorem dirlink_absent (hfind : Slots.find (nameKey name) (s.slots i) = none) :
    dirlink i name inum s =
      (writeEntry i (BitVec.ofNat 32 (16 * Slots.firstFree (s.slots i))) ⟨inum.setWidth 16, strncpy dirsiz name⟩ >>=
        fun r => if r = some 16 then return 0 else throw .dirlink) s := by
  have hlookup := dirlookup_eq h.toReadable name
  rw [hfind] at hlookup
  have hget : (MonadState.get : M sb (State sb)) s = .ok (s, s) := rfl
  have hlen : (s.slots i).length < (s.store.inode i).size.toNat + 1 + 0 := by
    rw [State.length_slots]
    omega
  have hloop := freeLoop_eq h.toReadable (Nat.zero_le _) hlen
  rw [List.drop_zero, Nat.zero_add] at hloop
  exact (bind_ok hlookup).trans ((bind_ok hget).trans (bind_ok hloop))

theorem dirlink_fits (inum : Word) (hfind : Slots.find (nameKey name) (s.slots i) = none)
    (hfits : Fits s i (Slots.firstFree (s.slots i))) :
    ∃ v, dirlink i name inum s = .ok (0, { s with store := v }) ∧
      Wrote s.store i (Dirent.byte ⟨inum.setWidth 16, strncpy dirsiz name⟩) (16 * Slots.firstFree (s.slots i)) 16 v := by
  obtain ⟨v, hrun, hw⟩ := writeEntry_fits h Slots.firstFree_le ⟨inum.setWidth 16, strncpy dirsiz name⟩ hfits
  exact ⟨v, (dirlink_absent h hfind).trans (bind_ok hrun), hw⟩

theorem dirlink_stops (inum : Word) (hfind : Slots.find (nameKey name) (s.slots i) = none)
    (hfits : ¬Fits s i (Slots.firstFree (s.slots i))) : ∃ e, dirlink i name inum s = .error e := by
  rw [dirlink_absent h hfind]
  rcases writeEntry_stops h Slots.firstFree_le ⟨inum.setWidth 16, strncpy dirsiz name⟩ hfits with hrun | ⟨e, hrun⟩
  · exact ⟨.dirlink, bind_ok hrun⟩
  · exact ⟨e, bind_error hrun⟩

theorem linked_of_wrote (hfind : Slots.find (nameKey name) (s.slots i) = none)
    (hw : Wrote s.store i (Dirent.byte ⟨inum.setWidth 16, strncpy dirsiz name⟩) (16 * Slots.firstFree (s.slots i)) 16 v)
    (hne : inum.setWidth 16 ≠ 0) (hnum : (inum.setWidth 16).setWidth 32 = inum) (hentry : (s.entryFor inum).isSome) :
    Linked s i name inum { s with store := v } := by
  have hslots := Wrote.slots hw h.toReadable Slots.firstFree_le (length_strncpy dirsiz name)
  have hslot : Dirent.slot ⟨inum.setWidth 16, strncpy dirsiz name⟩ = some (nameKey name, inum.setWidth 16) := by
    rw [Dirent.slot, if_neg hne, nameKey_strncpy]
  rw [hslot] at hslots
  have hdir : Directory { s with store := v } i :=
    Wrote.directory hw h (hslots ▸ Slots.distinct_put Slots.firstFree_le h.distinct hfind)
  refine ⟨hdir, ⟨BitVec.ofNat 32 (16 * Slots.firstFree (s.slots i)), ?_⟩, fun name' hne' => ?_, hslots⟩
  · rw [gives_eq hdir.toReadable, State.slots, hslots, Slots.find_put_self Slots.firstFree_le hfind]
    dsimp only
    rw [hnum, if_pos]
    exact hentry
  · refine gives_congr h.toReadable hdir.toReadable rfl ?_
    rw [State.slots, hslots, Slots.find_put_of_ne Slots.firstFree_le Slots.not_live_firstFree hne']

theorem linksRight_iff (hinum : inum ≠ 0) : LinksRight s i name inum ↔ CanLink s i name inum := by
  have hwidth : inum.toNat < 2 ^ 16 → (inum.setWidth 16).setWidth 32 = inum := fun hlt => by
    rw [← BitVec.toNat_inj, BitVec.toNat_setWidth, BitVec.toNat_setWidth, Nat.mod_eq_of_lt hlt,
      Nat.mod_eq_of_lt inum.isLt]
  constructor
  · intro hright
    refine ⟨fun n j hfind => ?_, fun habsent => ?_⟩
    · have hpresent : Present s i name := by
        by_contra habsent
        rw [find_eq_none_iff_absent.mpr habsent] at hfind
        cases hfind
      exact (dirlink_present h hfind).mp (hright.present hpresent)
    · have hfind := find_eq_none_iff_absent.mpr habsent
      obtain ⟨t, hrun, ht⟩ := hright.absent habsent
      by_cases hfits : Fits s i (Slots.firstFree (s.slots i))
      · obtain ⟨v, hrun', hw⟩ := dirlink_fits h inum hfind hfits
        rw [hrun'] at hrun
        cases hrun
        have hslots := ht.placed
        obtain ⟨off, hfound⟩ := ht.found
        rw [gives_eq ht.directory.toReadable, hslots, Slots.find_put_self Slots.firstFree_le hfind] at hfound
        dsimp only at hfound
        split at hfound
        · next hentry =>
          injection hfound with hfound
          injection hfound with hfound
          injection hfound with hnum
          refine ⟨?_, hnum ▸ hentry, hfits⟩
          rw [← hnum, BitVec.toNat_setWidth]
          exact lt_of_le_of_lt (Nat.mod_le _ _) (inum.setWidth 16).isLt
        · cases hfound
      · obtain ⟨e, he⟩ := dirlink_stops h inum hfind hfits
        rw [he] at hrun
        cases hrun
  · intro hcan
    refine ⟨fun hpresent => ?_, fun habsent => ?_⟩
    · cases hfind : Slots.find (nameKey name) (s.slots i) with
      | none => exact absurd hpresent (find_eq_none_iff_absent.mp hfind)
      | some r => exact (dirlink_present h hfind).mpr (hcan.present r.1 r.2 hfind)
    · have hfind := find_eq_none_iff_absent.mpr habsent
      obtain ⟨hlt, hentry, hfits⟩ := hcan.absent habsent
      obtain ⟨v, hrun, hw⟩ := dirlink_fits h inum hfind hfits
      refine ⟨_, hrun, linked_of_wrote h hfind hw (fun hzero => hinum ?_) (hwidth hlt) hentry⟩
      rw [← hwidth hlt, hzero]
      rfl

theorem clearEntry_removes (hrun : dirlookup i name s = .ok (some (k, off), t)) :
    ∃ u, Removes t i name off u := by
  have hlookup := dirlookup_eq h.toReadable name
  rw [hrun] at hlookup
  cases hfind : Slots.find (nameKey name) (s.slots i) with
  | none =>
    rw [hfind] at hlookup
    cases hlookup
  | some r =>
    obtain ⟨n, j⟩ := r
    rw [hfind, result] at hlookup
    cases hentry : s.entryFor (j.setWidth 32) with
    | none =>
      rw [bind_error (iget_none hentry)] at hlookup
      cases hlookup
    | some l =>
      obtain ⟨v, hget, hg⟩ := iget_got hentry
      rw [bind_ok hget] at hlookup
      cases hlookup
      rw [Nat.zero_add]
      have hdir := hg.directory h
      have hslots : t.slots i = s.slots i := by rw [State.slots, hg.contents h, State.slots]
      rw [← hslots] at hfind
      have hlive := (Slots.find_eq_some_iff.mp hfind).1
      have hlt : n < (t.slots i).length := (List.getElem?_eq_some_iff.mp hlive).1
      obtain ⟨u, hclear, hw⟩ := writeEntry_fits hdir (Nat.le_of_lt hlt) ⟨0, List.replicate dirsiz 0⟩ (hdir.fits hlt)
      have hput := Wrote.slots hw hdir.toReadable (Nat.le_of_lt hlt) List.length_replicate
      rw [show Dirent.slot ⟨0, List.replicate dirsiz 0⟩ = none from rfl] at hput
      have hdir' : Directory { t with store := u } i :=
        Wrote.directory hw hdir (hput ▸ Slots.distinct_clear hdir.distinct hlive)
      refine ⟨{ t with store := u }, hclear, hdir', ?_, fun name' hne => ?_⟩
      · rw [gives_eq hdir'.toReadable, State.slots, hput, Slots.find_clear_self hdir.distinct hlive]
      · refine gives_congr hdir.toReadable hdir'.toReadable rfl ?_
        rw [State.slots, hput, Slots.find_clear_of_ne hlive hne]

end results

theorem directory_is_map_iff (h : Directory s i) (name : Str) {inum : Word} (hinum : inum ≠ 0) :
    (∀ name' r, gives s i name' = .ok r → (r.isSome ↔ Present s i name')) ∧
      (LinksRight s i name inum ↔ CanLink s i name inum) ∧
      ∀ name' k off t, dirlookup i name' s = .ok (some (k, off), t) → ∃ u, Removes t i name' off u :=
  ⟨fun _ _ => gives_isSome_iff h.toReadable, linksRight_iff h hinum, fun _ _ _ _ => clearEntry_removes h⟩

def dotDisk : Word → Block := fun b =>
  if b = 1 then (((Block.zero.setWord 16 1).setWord 17 0x10000).setWord 18 16).setWord 19 3
  else if b = 2 then update Block.zero 0 15
  else if b = 3 then update (update Block.zero 0 1) 2 46
  else .zero

theorem num_dot (p : Disk.Slot tiny.ninodes) :
    (boot dotDisk : Disk.Store tiny).num p = if p = .addr tinyFile 0 then 3 else 0 := by
  have haddrs : ∀ (i : Fin tiny.ninodes) (k : Fin 13),
      (tiny.dinode dotDisk i).addrs k = if i = tinyFile ∧ k = 0 then 3 else 0 := by decide +kernel
  cases p with
  | addr i k =>
    refine (haddrs i k).trans (if_congr ?_ rfl rfl)
    rw [Disk.Slot.addr.injEq]
  | entry i j =>
    rw [if_neg (by rintro ⟨⟩)]
    exact if_pos ((haddrs i 12).trans (if_neg fun h => absurd h.2 (by decide)))

theorem owned_dot : Owned (boot dotDisk : Disk.Store tiny) := by
  have hslot : ∀ p, (boot dotDisk : Disk.Store tiny).num p ≠ 0 → p = .addr tinyFile 0 := by
    intro p hp
    rw [num_dot] at hp
    by_contra hne
    exact hp (if_neg hne)
  refine ⟨fun p _ hp => ?_, fun p q _ _ hp hpq => ?_, fun p _ hp => ?_, fun b hb hout => ?_⟩
  · rw [num_dot, if_pos (hslot p hp)]
    decide
  · exact (hslot p hp).trans (hslot q (hpq ▸ hp)).symm
  · rw [num_dot, if_pos (hslot p hp)]
    decide +kernel
  · have hlt : b.toNat < 3 := by
      by_contra hge
      exact hout ⟨Nat.le_of_not_lt hge, hb⟩
    have hbits : ∀ n < 3, tiny.bit dotDisk n = true := by decide +kernel
    exact hbits _ hlt

def dotState : State tiny where
  store := (boot dotDisk).setInode tinyFile ((boot dotDisk).inode tinyFile)
  cache := fun k => if k = 0 then ⟨1, 1, true⟩ else ⟨0, 0, false⟩

theorem slots_dot : dotState.slots tinyFile = [some ([46], 1)] := by decide +kernel

theorem directory_dot : Directory dotState tinyFile := by
  have hallocated : Allocated (boot dotDisk) tinyFile := by
    rw [Allocated]
    decide +kernel
  have hwork := (ilock_ends (inv_boot owned_dot) tinyFile).of_ok (ilock_uncached rfl hallocated)
  have hsize : (dotState.store.inode tinyFile).size = 16 := by decide +kernel
  refine { type := by decide +kernel, full := ⟨by rw [hsize]; decide, fun bn hbn => ?_⟩, whole := by rw [hsize]; decide,
           inv := hwork.inv, valid := hwork.locked, referenced := ⟨0, by decide⟩, distinct := ?_ }
  · rw [hsize, show (16 : Word).toNat = 16 from rfl] at hbn
    obtain rfl : bn = 0 := by omega
    decide +kernel
  · have hzero : ∀ {m : Nat} {e : Str × BitVec 16}, (dotState.slots tinyFile)[m]? = some (some e) → m = 0 := by
      intro m e he
      have hlt := (List.getElem?_eq_some_iff.mp he).1
      rw [slots_dot] at hlt
      exact Nat.lt_one_iff.mp hlt
    intro m n k v w hm hn
    rw [hzero hm, hzero hn]

theorem directory_is_map_iff_dot : LinksRight dotState tinyFile [97] 1 ∧ ∃ u, Removes
    ⟨dotState.store, update dotState.cache 0 ⟨1, 2, true⟩⟩ tinyFile [46] 0 u := by
  have hmap := directory_is_map_iff directory_dot [97] (show (1 : Word) ≠ 0 by decide)
  have habsent : Slots.find (nameKey [97]) (dotState.slots tinyFile) = none := by
    rw [slots_dot]
    decide
  refine ⟨hmap.2.1.mpr ⟨fun n j hfind => ?_, fun _ => ⟨by decide, by decide +kernel, ?_⟩⟩, ?_⟩
  · rw [habsent] at hfind
    cases hfind
  · rw [slots_dot]
    exact ⟨by decide, by decide +kernel⟩
  · refine hmap.2.2 [46] 0 0 _ ?_
    rw [dirlookup_eq directory_dot.toReadable, slots_dot]
    rfl

theorem dirlink_dot_stops :
    Directory dotState tinyFile ∧ gives dotState tinyFile [46] = .ok (some (1, 0)) ∧
      dirlink tinyFile [46] 1 dotState = .error (.iputHeld 0) ∧ ¬LinksRight dotState tinyFile [46] 1 := by
  have hstop : dirlink tinyFile [46] 1 dotState = .error (.iputHeld 0) :=
    eq_error_of_map (g := Prod.fst) (by decide +kernel)
  refine ⟨directory_dot, by decide +kernel, hstop, fun hright => ?_⟩
  obtain ⟨t, ht, -⟩ := hright.present ⟨0, 1, by rw [slots_dot]; rfl⟩
  rw [hstop] at ht
  cases ht

end Xv6.Dir
