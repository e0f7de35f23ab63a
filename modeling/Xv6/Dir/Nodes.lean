import Xv6.Dir.Map
import Xv6.Fs.Inode

/-! The directories and the inode cache of `Fs` as those of the bytes on the disk: there an inode is
its own entry of the cache, and a directory a list of entries. -/

namespace Xv6.Dir

open Function Lib Disk Fs Prog

section entries

variable {n : Nat} [NeZero n]

def slotOf (e : Fs.Dirent n) : Option (Str × BitVec 16) :=
  if e.inum = 0 then none else some (nameKey e.name, BitVec.ofNat 16 e.inum.val)

theorem find_slotOf (name : Str) (es : List (Fs.Dirent n)) : Slots.find (nameKey name) (es.map slotOf) =
    (findEntry name es).map fun r => (r.1, BitVec.ofNat 16 r.2.val) := by
  induction es with
  | nil => rfl
  | cons e es ih =>
    have hnext : (Slots.find (nameKey name) (es.map slotOf)).map (fun r => (r.1 + 1, r.2)) =
        ((findEntry name es).map fun r => (r.1 + 1, r.2)).map fun r => (r.1, BitVec.ofNat 16 r.2.val) := by
      rw [ih, Option.map_map, Option.map_map]
      rfl
    rw [List.map_cons, findEntry, slotOf]
    by_cases hinum : e.inum = 0
    · rw [if_pos hinum, if_neg fun h => h.1 hinum]
      exact hnext
    · rw [if_neg hinum, Slots.find]
      by_cases hname : nameKey e.name = nameKey name
      · rw [if_pos hname, if_pos ⟨hinum, namecmp_eq_zero_iff.mpr hname.symm⟩]
        rfl
      · rw [if_neg hname, if_neg fun h => hname (namecmp_eq_zero_iff.mp h.2).symm]
        exact hnext

theorem firstFree_slotOf (es : List (Fs.Dirent n)) : Slots.firstFree (es.map slotOf) = Fs.freeEntry es := by
  induction es with
  | nil => rfl
  | cons e es ih =>
    rw [List.map_cons, Slots.firstFree, List.findIdx_cons, Fs.freeEntry, ← ih, slotOf]
    by_cases hinum : e.inum = 0
    · rw [if_pos hinum, if_pos hinum]
      rfl
    · rw [if_neg hinum, if_neg hinum]
      rfl

theorem put_slotOf (h : off ≤ es.length) (e : Fs.Dirent n) :
    (putEntry es off e).map slotOf = Slots.put (es.map slotOf) off (slotOf e) := by
  have hlen : off ≤ (es.map slotOf).length := by rwa [List.length_map]
  apply List.ext_getElem?
  intro m
  rw [Slots.getElem?_put hlen, List.getElem?_map, List.getElem?_map, putEntry]
  split
  · rw [List.getElem?_set]
    grind
  · obtain rfl : off = es.length := by omega
    rw [List.getElem?_append]
    grind

end entries

variable {sb : Superblock} [NeZero sb.ninodes] {s t : State sb} {v v' : Fs.State sb.ninodes} {i j : Fin sb.ninodes}
  {es : List (Fs.Dirent sb.ninodes)} {name : Str}

/-- The node that `Fs` has for a directory lists the entries that are in its bytes. -/
structure Lists (s : State sb) (v : Fs.State sb.ninodes) (i : Fin sb.ninodes)
    (es : List (Fs.Dirent sb.ninodes)) : Prop where
  node : v.node i = .dir es
  slots : s.slots i = es.map slotOf

omit [NeZero sb.ninodes] in
theorem iget_fst (h : Fs.iget j v = .ok (r, v')) : r = j ∧ v'.node = v.node := by
  unfold Fs.iget at h
  obtain ⟨_, _, hget, h⟩ := of_bind_ok h
  cases hget
  split at h
  · cases h
    exact ⟨rfl, rfl⟩
  · split at h
    · cases h
      exact ⟨rfl, rfl⟩
    · cases h

omit [NeZero sb.ninodes] in
theorem writeDirent_node (hnode : v.node i = .dir es) (h : writeDirent i off e v = .ok (1, v')) :
    v'.node i = .dir (putEntry es off e) := by
  unfold writeDirent at h
  obtain ⟨_, _, hget, h⟩ := of_bind_ok h
  cases hget
  rw [hnode] at h
  dsimp only at h
  split at h
  · cases h
  · split at h
    · cases h
    · cases h
      exact update_self ..

theorem fs_dirlookup_eq (hnode : v.node i = .dir es) (h : Fs.dirlookup i name v = .ok (r, v')) :
    r = findEntry name es ∧ v'.node = v.node := by
  unfold Fs.dirlookup at h
  obtain ⟨_, _, hget, h⟩ := of_bind_ok h
  cases hget
  rw [hnode] at h
  dsimp only at h
  cases hfind : findEntry name es with
  | none =>
    rw [hfind] at h
    cases h
    exact ⟨rfl, rfl⟩
  | some p =>
    rw [hfind] at h
    obtain ⟨ip, v₁, higet, h⟩ := of_bind_ok h
    obtain ⟨rfl, hsame⟩ := iget_fst higet
    cases h
    exact ⟨rfl, hsame⟩

theorem dirlookup_agrees (hr : Readable s i) (hl : Lists s v i es) (hn : sb.ninodes ≤ 2 ^ 16)
    (h : dirlookup i name s = .ok (r, t)) (h' : Fs.dirlookup i name v = .ok (r', v')) :
    r.map (fun p => ((t.cache p.1).inum, p.2)) =
      r'.map fun p => (BitVec.ofNat 32 p.2.val, BitVec.ofNat 32 (16 * p.1)) := by
  have hgives : gives s i name = .ok (r.map fun p => ((t.cache p.1).inum, p.2)) := by
    rw [gives, h]
    rfl
  rw [gives_eq hr, hl.slots, find_slotOf, ← (fs_dirlookup_eq hl.node h').1] at hgives
  cases r' with
  | none => exact (Except.ok.inj hgives).symm
  | some p =>
    have hwidth : (BitVec.ofNat 16 p.2.val).setWidth 32 = BitVec.ofNat 32 p.2.val := by
      apply BitVec.eq_of_toNat_eq
      have := p.2.isLt
      rw [BitVec.toNat_setWidth, BitVec.toNat_ofNat, BitVec.toNat_ofNat]
      omega
    simp only [Option.map_some, hwidth] at hgives
    split at hgives
    · exact (Except.ok.inj hgives).symm
    · cases hgives

/-- Both return the same, and if they have added an entry, it is in the same place of the list and of
the bytes. -/
theorem dirlink_agrees (hd : Directory s i) (hl : Lists s v i es) (hn : sb.ninodes ≤ 2 ^ 16)
    (h : dirlink i name (BitVec.ofNat 32 j.val) s = .ok (r, t)) (h' : Fs.dirlink i name j v = .ok (r', v')) :
    r = r' ∧ (r = 0 → ∃ es', Lists t v' i es') := by
  obtain ⟨p', v₁, hlook', h'⟩ := of_bind_ok h'
  obtain ⟨hfind, hnode⟩ := fs_dirlookup_eq hl.node hlook'
  have hslots := find_slotOf name es
  rw [← hl.slots, ← hfind] at hslots
  cases p' with
  | some p' =>
    obtain ⟨_, _, -, h'⟩ := of_bind_ok h'
    cases h'
    obtain ⟨p, t₁, hlook, h⟩ := of_bind_ok h
    have hsome := dirlookup_agrees hd.toReadable hl hn hlook hlook'
    cases p with
    | none => cases hsome
    | some p =>
      obtain ⟨_, _, -, h⟩ := of_bind_ok h
      cases h
      exact ⟨rfl, fun h0 => absurd h0 (by decide)⟩
  | none =>
    by_cases hfits : Fits s i (Slots.firstFree (s.slots i))
    case neg =>
      obtain ⟨e, hstop⟩ := dirlink_stops hd (BitVec.ofNat 32 j.val) hslots hfits
      rw [hstop] at h
      cases h
    obtain ⟨u, hrun, hw⟩ := dirlink_fits hd (BitVec.ofNat 32 j.val) hslots hfits
    rw [hrun] at h
    cases h
    obtain ⟨_, _, hget, h'⟩ := of_bind_ok h'
    cases hget
    rw [hnode, hl.node] at h'
    obtain ⟨w, v₂, hwrite, h'⟩ := of_bind_ok h'
    split at h'
    · cases h'
    · next hone =>
      cases h'
      rw [not_not.mp hone] at hwrite
      refine ⟨rfl, fun _ => ⟨_, writeDirent_node (hnode ▸ hl.node) hwrite, ?_⟩⟩
      have hput := Wrote.slots hw hd.toReadable Slots.firstFree_le (length_strncpy dirsiz name)
      have hle : freeEntry es ≤ es.length := by
        rw [← firstFree_slotOf, ← es.length_map (f := slotOf)]
        exact Slots.firstFree_le
      rw [put_slotOf hle, ← hl.slots, ← firstFree_slotOf, ← hl.slots]
      refine hput.trans (congrArg _ ?_)
      have hwidth : (BitVec.ofNat 32 j.val).setWidth 16 = BitVec.ofNat 16 j.val := by
        apply BitVec.eq_of_toNat_eq
        rw [BitVec.toNat_setWidth, BitVec.toNat_ofNat, BitVec.toNat_ofNat]
        omega
      have hzero : BitVec.ofNat 16 j.val = 0 ↔ j = 0 := by
        have := j.isLt
        rw [← BitVec.toNat_inj, BitVec.toNat_ofNat, Fin.ext_iff, Fin.val_zero]
        change j.val % 65536 = 0 ↔ _
        omega
      rw [Dirent.slot, slotOf, hwidth, nameKey_strncpy, Fs.nameKey_strncpy]
      exact if_congr hzero rfl rfl

end Xv6.Dir
