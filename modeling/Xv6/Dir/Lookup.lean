import Xv6.Dir.Entries

namespace Xv6.Dir

open Function Lib Disk Fs Prog

variable {sb : Superblock} {s t : State sb} {i : Fin sb.ninodes} {name : Str} {n : Nat}

def State.slots (s : State sb) (i : Fin sb.ninodes) : List (Option (Str × BitVec 16)) := slotsOf (s.store.contents i)

structure Readable (s : State sb) (i : Fin sb.ninodes) : Prop where
  type : (s.store.inode i).type = 1
  full : Full s.store i
  whole : (s.store.inode i).size.toNat % 16 = 0

theorem onStore_ok (h : x s.store = .ok (a, v)) :
    onStore x s = .ok (a, { s with store := v }) := by
  rw [onStore, h]

theorem onStore_error (h : x s.store = .error e) :
    onStore x s = .error (.disk e) := by
  rw [onStore, h]

theorem State.length_slots : (s.slots i).length = (s.store.inode i).size.toNat / 16 := by
  rw [slots, length_slotsOf, Disk.Store.length_contents]

namespace Readable

variable (h : Readable s i)

include h

theorem type_ne : (s.store.inode i).type ≠ 3 := by
  rw [h.type]
  decide

theorem toNat_off (hn : n ≤ (s.slots i).length) : (BitVec.ofNat 32 (16 * n)).toNat = 16 * n := by
  have hsize := h.full.size
  rw [State.length_slots] at hn
  exact Nat.mod_eq_of_lt (by omega)

theorem readEntry (hn : n < (s.slots i).length) (e : Stop) :
    readEntry i (BitVec.ofNat 32 (16 * n)) e s = .ok (Dirent.ofBytes (chunk (s.store.contents i) n), s) := by
  have hoff := h.toNat_off (Nat.le_of_lt hn)
  have hsize := h.full.size
  rw [State.length_slots] at hn
  have hread := readi_slice h.type_ne h.full (BitVec.ofNat 32 (16 * n)) 16
  have hslice : Disk.slice (s.store.contents i) (BitVec.ofNat 32 (16 * n)) 16 = some (chunk (s.store.contents i) n) := by
    rw [Disk.slice, hoff, show (16 : Word).toNat = 16 from rfl, Disk.Store.length_contents, if_neg (by omega)]
    rfl
  rw [hslice] at hread
  refine (bind_ok (onStore_ok hread)).trans ?_
  have hlen : (chunk (s.store.contents i) n).length = 16 := length_chunk (by rwa [Disk.Store.length_contents])
  simp only [hlen, if_true]
  rfl

omit h in
theorem drop_slots (hn : n < (s.slots i).length) :
    (s.slots i).drop n = (Dirent.ofBytes (chunk (s.store.contents i) n)).slot :: (s.slots i).drop (n + 1) := by
  have hget : (s.slots i)[n]? = some (Dirent.ofBytes (chunk (s.store.contents i) n)).slot := by
    rw [State.length_slots] at hn
    rw [State.slots, getElem?_slotsOf, Disk.Store.length_contents, if_pos hn]
  obtain ⟨hlt, hget⟩ := List.getElem?_eq_some_iff.mp hget
  rw [List.drop_eq_getElem_cons hlt, hget]

theorem lt_size_iff (hn : n ≤ (s.slots i).length) :
    BitVec.ofNat 32 (16 * n) < (s.store.inode i).size ↔ n < (s.slots i).length := by
  rw [BitVec.lt_def, h.toNat_off hn, State.length_slots]
  have := h.whole
  omega

end Readable

theorem add_sixteen : BitVec.ofNat 32 (16 * n) + 16 = BitVec.ofNat 32 (16 * (n + 1)) := by
  rw [Nat.mul_succ, BitVec.ofNat_add]
  rfl

def result (n : Nat) : Option (Nat × BitVec 16) → M sb (Option (Fin ninode × Word))
  | none => return none
  | some r => do
    let k ← iget (r.2.setWidth 32)
    return some (k, BitVec.ofNat 32 (16 * (n + r.1)))

theorem result_succ (r : Option (Nat × BitVec 16)) :
    (result n (r.map fun r => (r.1 + 1, r.2)) : M sb _) = result (n + 1) r := by
  cases r with
  | none => rfl
  | some r => simp only [result, Option.map_some, Nat.add_assoc, Nat.add_comm 1 r.1]

theorem lookupLoop_eq (h : Readable s i) (hn : n ≤ (s.slots i).length) (hfuel : (s.slots i).length < fuel + n) :
    lookupLoop i name fuel (BitVec.ofNat 32 (16 * n)) s =
      result n (Slots.find (nameKey name) ((s.slots i).drop n)) s := by
  have hget : (MonadState.get : M sb (State sb)) s = .ok (s, s) := rfl
  induction fuel generalizing n with
  | zero => omega
  | succ fuel ih =>
    unfold lookupLoop
    refine (bind_ok hget).trans ?_
    by_cases hlt : n < (s.slots i).length
    · rw [if_pos ((h.lt_size_iff hn).mpr hlt)]
      refine (bind_ok (h.readEntry hlt _)).trans ?_
      rw [Readable.drop_slots hlt]
      generalize Dirent.ofBytes (chunk (s.store.contents i) n) = de
      have hnext := ih (n := n + 1) hlt (by omega)
      rw [add_sixteen]
      by_cases hinum : de.inum = 0
      · rw [if_pos hinum, Dirent.slot, if_pos hinum, Slots.find, result_succ]
        exact hnext
      · rw [if_neg hinum, Dirent.slot, if_neg hinum, Slots.find]
        by_cases hname : nameKey name = nameKey de.name
        · rw [if_pos (namecmp_eq_zero_iff.mpr hname), if_pos hname.symm]
          rfl
        · rw [if_neg fun heq => hname (namecmp_eq_zero_iff.mp heq), if_neg fun heq => hname heq.symm, result_succ]
          exact hnext
    · rw [if_neg fun hlt' => hlt ((h.lt_size_iff hn).mp hlt'), List.drop_eq_nil_of_le (Nat.le_of_not_lt hlt)]
      rfl

theorem dirlookup_eq (h : Readable s i) (name : Str) :
    dirlookup i name s = result 0 (Slots.find (nameKey name) (s.slots i)) s := by
  have hget : (MonadState.get : M sb (State sb)) s = .ok (s, s) := rfl
  refine (bind_ok hget).trans ?_
  rw [if_neg (not_not_intro h.type)]
  have hlen : (s.slots i).length < (s.store.inode i).size.toNat + 1 + 0 := by
    rw [State.length_slots]
    omega
  exact lookupLoop_eq h (Nat.zero_le _) hlen

theorem freeLoop_eq (h : Readable s i) (hn : n ≤ (s.slots i).length) (hfuel : (s.slots i).length < fuel + n) :
    freeLoop i fuel (BitVec.ofNat 32 (16 * n)) s =
      .ok (BitVec.ofNat 32 (16 * (n + Slots.firstFree ((s.slots i).drop n))), s) := by
  have hget : (MonadState.get : M sb (State sb)) s = .ok (s, s) := rfl
  induction fuel generalizing n with
  | zero => omega
  | succ fuel ih =>
    unfold freeLoop
    refine (bind_ok hget).trans ?_
    by_cases hlt : n < (s.slots i).length
    · rw [if_pos ((h.lt_size_iff hn).mpr hlt)]
      refine (bind_ok (h.readEntry hlt _)).trans ?_
      rw [Readable.drop_slots hlt]
      generalize Dirent.ofBytes (chunk (s.store.contents i) n) = de
      rw [Slots.firstFree, List.findIdx_cons]
      by_cases hinum : de.inum = 0
      · rw [if_pos hinum, Dirent.slot, if_pos hinum]
        rfl
      · rw [if_neg hinum, Dirent.slot, if_neg hinum, add_sixteen]
        have hsum : n + (Slots.firstFree ((s.slots i).drop (n + 1)) + 1) = n + 1 + Slots.firstFree ((s.slots i).drop (n + 1)) := by
          omega
        exact (ih hlt (by omega)).trans (by rw [← hsum]; rfl)
    · rw [if_neg fun hlt' => hlt ((h.lt_size_iff hn).mp hlt'), List.drop_eq_nil_of_le (Nat.le_of_not_lt hlt)]
      rfl

namespace State

def entryFor (s : State sb) (inum : Word) : Option (Fin ninode) :=
  ((List.finRange ninode).find? fun k => s.Caches inum k).or
    ((List.finRange ninode).find? fun k => (s.cache k).ref = 0)

end State

structure Got (s : State sb) (inum : Word) (k : Fin ninode) (t : State sb) : Prop where
  names : (t.cache k).inum = inum
  locked : (t.cache k).locked = (s.cache k).locked
  last : t.last k = none
  caches : ∀ j l, s.Caches j l → t.Caches j l
  store : t.store = s.store ∨ (∀ l, ¬s.Caches inum l) ∧ t.store = forget s.store (inodeOf inum)

theorem last_forget (h : t.store = forget s.store (inodeOf (t.cache k).inum)) : t.last k = none := by
  unfold State.last
  rw [h]
  cases hi : (inodeOf (t.cache k).inum : Option (Fin sb.ninodes)) with
  | none => rfl
  | some j => simp [forget, Option.filter]

theorem iget_got (h : s.entryFor inum = some k) :
    ∃ t, iget inum s = .ok (k, t) ∧ Got s inum k t := by
  have hget : (MonadState.get : M sb (State sb)) s = .ok (s, s) := rfl
  unfold State.entryFor at h
  cases hown : (List.finRange ninode).find? fun k => s.Caches inum k with
  | some l =>
    rw [hown, Option.some_or] at h
    cases h
    have hcaches : s.Caches inum k := by simpa using List.find?_some hown
    refine ⟨s.setRef k ((s.cache k).ref + 1), ?_, ?_⟩
    · refine (bind_ok hget).trans ?_
      rw [hown]
      rfl
    have hk : (s.setRef k ((s.cache k).ref + 1)).cache k = { s.cache k with ref := (s.cache k).ref + 1 } :=
      update_self ..
    refine ⟨by rw [hk]; exact hcaches.2, by rw [hk], ?_, fun j l hl => ?_, .inl rfl⟩
    · have hpos := hcaches.1
      rw [State.last, hk, Option.filter_eq_none_iff]
      intro j _ hlast
      have href := (of_decide_eq_true hlast).2.2
      dsimp only at href
      omega
    · by_cases hlk : l = k
      · rw [hlk] at hl ⊢
        rw [State.Caches, hk]
        exact ⟨Nat.succ_pos _, hl.2⟩
      · rw [State.Caches, State.setRef]
        dsimp only
        rw [update_of_ne hlk]
        exact hl
  | none =>
    rw [hown, Option.none_or] at h
    have hfree : (s.cache k).ref = 0 := by simpa using List.find?_some h
    obtain ⟨t, ht⟩ : ∃ t : State sb,
      t = ⟨forget s.store (inodeOf inum), update s.cache k ⟨inum, 1, (s.cache k).locked⟩⟩ := ⟨_, rfl⟩
    have hk : t.cache k = ⟨inum, 1, (s.cache k).locked⟩ := by
      rw [ht]
      exact update_self ..
    have hstore : t.store = forget s.store (inodeOf inum) := by rw [ht]
    refine ⟨t, ?_, by rw [hk], by rw [hk], last_forget (s := s) (by rw [hk, hstore]), fun j l hl => ?_, .inr ⟨fun l hl => ?_, hstore⟩⟩
    · refine (bind_ok hget).trans ?_
      rw [hown, ht]
      dsimp only
      rw [h]
      rfl
    · have hlk : l ≠ k := by
        rintro rfl
        exact absurd hl.1 (by rw [hfree]; decide)
      have hl' : t.cache l = s.cache l := by
        rw [ht]
        exact update_of_ne hlk ..
      rw [State.Caches, hl']
      exact hl
    · have := List.find?_eq_none.mp hown l (List.mem_finRange l)
      simp [hl] at this

theorem iget_none (h : s.entryFor inum = none) : iget inum s = .error .igetNoInodes := by
  have hget : (MonadState.get : M sb (State sb)) s = .ok (s, s) := rfl
  obtain ⟨hown, hfree⟩ := Option.or_eq_none_iff.mp h
  refine (bind_ok hget).trans ?_
  rw [hown]
  dsimp only
  rw [hfree]
  rfl

theorem Got.iput (h : Got s inum k t) :
    iput k t = if (s.cache k).locked then .error (.iputHeld k) else .ok (⟨⟩, t.setRef k ((t.cache k).ref - 1)) := by
  have hget : (MonadState.get : M sb (State sb)) t = .ok (t, t) := rfl
  refine (bind_ok hget).trans ?_
  rw [h.locked]
  split
  · rfl
  · rw [h.last]
    rfl

def gives (s : State sb) (i : Fin sb.ninodes) (name : Str) : Except Stop (Option (Word × Word)) :=
  (dirlookup i name s).map fun r => r.1.map fun p => ((r.2.cache p.1).inum, p.2)

theorem gives_eq (h : Readable s i) (name : Str) :
    gives s i name = match Slots.find (nameKey name) (s.slots i) with
      | none => .ok none
      | some r =>
        if (s.entryFor (r.2.setWidth 32)).isSome then .ok (some (r.2.setWidth 32, BitVec.ofNat 32 (16 * r.1)))
        else .error .igetNoInodes := by
  unfold gives
  rw [dirlookup_eq h]
  cases Slots.find (nameKey name) (s.slots i) with
  | none => rfl
  | some r =>
    unfold result
    dsimp only
    cases hentry : s.entryFor (r.2.setWidth 32) with
    | none =>
      rw [bind_error (iget_none hentry)]
      rfl
    | some k =>
      obtain ⟨t, hrun, ht⟩ := iget_got hentry
      rw [bind_ok hrun]
      show Except.ok (some ((t.cache k).inum, BitVec.ofNat 32 (16 * (0 + r.1)))) = _
      rw [ht.names, Nat.zero_add]
      rfl

end Xv6.Dir
