import Xv6.Mkfs.Inodes

namespace Xv6.Mkfs

open Disk Lib Prog

theorem bmap_eq (h : Inv data s) (fbn : Nat) (hfbn : fbn < 140) (hlen : 512 * fbn < (data i).length) :
    bmap i fbn (boot s.disk) = .ok ((boot s.disk).num (placeOf i fbn hfbn), boot s.disk) := by
  have hget : (MonadState.get : Disk.M sb (Store sb)) (boot s.disk) = .ok (boot s.disk, boot s.disk) := rfl
  have hload : ∀ k : Fin 13, 512 * k.val < (data i).length →
      loadAddr i k (boot s.disk) = .ok ((boot s.disk).num (.addr i k), boot s.disk) := by
    intro k hk
    have hne : ((boot s.disk).inode i).addrs k ≠ 0 := h.holds.num_ne_zero ((inUse_addr rfl k).mpr hk)
    refine (bind_ok hget).trans ?_
    rw [if_neg hne]
    rfl
  unfold bmap placeOf
  by_cases hd : fbn < 12
  · rw [dif_pos hd, dif_pos hd]
    exact hload ⟨fbn, by omega⟩ hlen
  · rw [dif_neg hd, dif_neg hd, dif_pos (show fbn - 12 < 128 by omega)]
    refine (bind_ok (hload 12 (by change 512 * 12 < _; omega))).trans ((bind_ok hget).trans ?_)
    have hne12 : (boot s.disk).num (.addr i 12) ≠ 0 :=
      h.holds.num_ne_zero ((inUse_addr rfl 12).mpr (by change 512 * 12 < _; omega))
    have hentry : (boot s.disk).num (.entry i ⟨fbn - 12, by omega⟩) =
        ((boot s.disk : Store sb).disk ((boot s.disk).num (.addr i 12))).word ⟨fbn - 12, by omega⟩ := if_neg hne12
    have hne : (boot s.disk).num (.entry i ⟨fbn - 12, by omega⟩) ≠ 0 :=
      h.holds.num_ne_zero ((inUse_entry rfl _).mpr (by change 512 * (12 + (fbn - 12)) < _; omega))
    rw [← hentry, if_neg hne]
    rfl

theorem block_bytes (h : Inv data s) (hfbn : off / 512 < 140) (hn : off % 512 + n ≤ 512) (hlen : off + n ≤ (data i).length)
    (hpos : 0 < n) :
    ((List.ofFn ((boot s.disk : Store sb).disk ((boot s.disk).num (placeOf i (off / 512) hfbn)))).drop (off % 512)).take n =
      ((data i).drop off).take n := by
  have hplace : InUse data (placeOf i (off / 512) hfbn) := by
    unfold InUse
    rw [start_placeOf, inum_placeOf]
    omega
  apply List.ext_getElem
  · simp only [List.length_take, List.length_drop, List.length_ofFn]
    omega
  · intro k hk hk'
    simp only [List.length_take, List.length_drop, List.length_ofFn] at hk
    have hbytes := h.holds.bytes _ hplace (isData_placeOf hfbn) ⟨off % 512 + k, by omega⟩
    rw [start_placeOf, inum_placeOf] at hbytes
    simp only [List.getElem_take, List.getElem_drop, List.getElem_ofFn]
    rw [hbytes, List.getD_eq_getElem?_getD, List.getElem?_eq_getElem (by simp only; omega), Option.getD_some]
    congr 1
    simp only
    omega

theorem readLoop_eq (h : Inv data s) (fuel : Nat) (hfuel : n ≤ fuel) (hlen : off + n ≤ (data i).length) :
    readLoop i fuel off n (boot s.disk) = .ok (((data i).drop off).take n, boot s.disk) := by
  induction fuel generalizing off n with
  | zero =>
    obtain rfl := Nat.le_zero.mp hfuel
    rw [List.take_zero]
    rfl
  | succ fuel ih =>
    unfold readLoop
    by_cases hn : n = 0
    · rw [if_pos hn, hn, List.take_zero]
      rfl
    rw [if_neg hn]
    have hshort := h.short i
    obtain ⟨m, hm⟩ : ∃ m, min n (512 - off % 512) = m := ⟨_, rfl⟩
    rw [hm]
    have hget : (MonadState.get : Disk.M sb (Store sb)) (boot s.disk) = .ok (boot s.disk, boot s.disk) := rfl
    refine (bind_ok (bmap_eq h (off / 512) (by omega) (by omega))).trans ((bind_ok hget).trans ?_)
    have hrest := ih (show n - m ≤ fuel by omega) (show off + m + (n - m) ≤ (data i).length by omega)
    refine (bind_ok hrest).trans ?_
    rw [block_bytes h (by omega) (by omega) (by omega) (by omega)]
    have hsplit : ((data i).drop off).take n =
        ((data i).drop off).take m ++ ((data i).drop (off + m)).take (n - m) := by
      rw [← List.drop_drop, ← List.take_add, show m + (n - m) = n by omega]
    rw [hsplit]
    rfl

def expected (file : List Byte) (off n : Word) : Option (List Byte) :=
  if file.length < off.toNat ∨ 2 ^ 32 ≤ off.toNat + n.toNat then none
  else some ((file.drop off.toNat).take n.toNat)

theorem readi_eq (h : Inv data s) (i : Inum) (off n : Word) :
    readi i off n (boot s.disk) = .ok (expected (data i) off n, boot s.disk) := by
  have hshort := h.short i
  have hsize := h.size i
  have hget : (MonadState.get : Disk.M sb (Store sb)) (boot s.disk) = .ok (boot s.disk, boot s.disk) := rfl
  have hinode : (boot s.disk).inode i = sb.dinode s.disk i := rfl
  have hoff := off.isLt
  have hn := n.isLt
  refine (bind_ok hget).trans ?_
  rw [hinode]
  have hiff : ((sb.dinode s.disk i).type = 3 ∨ (sb.dinode s.disk i).size < off ∨ off + n < off) ↔
      ((data i).length < off.toNat ∨ 2 ^ 32 ≤ off.toNat + n.toNat) := by
    rw [BitVec.lt_def, BitVec.lt_def, BitVec.toNat_add, hsize]
    simp only [h.type i, false_or]
    omega
  unfold expected
  by_cases hbad : (data i).length < off.toNat ∨ 2 ^ 32 ≤ off.toNat + n.toNat
  · rw [if_pos (hiff.mpr hbad), if_pos hbad]
    rfl
  rw [if_neg (fun hbad' => hbad (hiff.mp hbad')), if_neg hbad]
  have hsum : (off + n).toNat = off.toNat + n.toNat := by
    rw [BitVec.toNat_add]
    omega
  have hcut : (if (sb.dinode s.disk i).size < off + n then (sb.dinode s.disk i).size - off else n).toNat =
      min n.toNat ((data i).length - off.toNat) := by
    split
    · next hlt =>
      rw [BitVec.lt_def, hsum, hsize] at hlt
      rw [BitVec.toNat_sub, hsize]
      omega
    · next hge =>
      rw [BitVec.lt_def, hsum, hsize] at hge
      omega
  rw [hcut]
  refine (bind_ok (readLoop_eq h _ le_rfl (by omega))).trans ?_
  have htake : ((data i).drop off.toNat).take (min n.toNat ((data i).length - off.toNat)) =
      ((data i).drop off.toNat).take n.toNat := by
    rw [← List.length_drop, ← List.take_eq_take_min]
  rw [htake]
  rfl

inductive Call
  | ialloc (type : Kind)
  | iappend (inum : Word) (p : List Byte)

def Call.run : Call → M Unit
  | ialloc type => discard (Mkfs.ialloc type)
  | iappend inum p => Mkfs.iappend inum p

def iallocs : List Call → Nat
  | [] => 0
  | .ialloc _ :: cs => iallocs cs + 1
  | .iappend _ _ :: cs => iallocs cs

/-- No inode is allocated after data have been appended to it, where `next` is the first that
`ialloc` gives. -/
def Valid (next : Nat) : List Call → Prop
  | [] => True
  | .ialloc _ :: cs => next < sb.ninodes ∧ Valid (next + 1) cs
  | .iappend inum _ :: cs =>
    inum.toNat < sb.ninodes ∧ (inum.toNat < next ∨ next + iallocs cs ≤ inum.toNat) ∧ Valid next cs

def appended : List Call → Inum → List Byte
  | [], _ => []
  | .ialloc _ :: cs, i => appended cs i
  | .iappend inum p :: cs, i => (if inum = inumber i then p else []) ++ appended cs i

theorem inumber_inj (h : inumber i = inumber j) : i = j := by
  have hnat := congrArg BitVec.toNat h
  rw [toNat_inumber, toNat_inumber] at hnat
  exact Fin.ext hnat

theorem appended_iappend (data : Inum → List Byte) (i : Inum) (p : List Byte) (cs : List Call) (j : Inum) :
    data j ++ appended (.iappend (inumber i) p :: cs) j = appendTo data i p j ++ appended cs j := by
  by_cases hj : j = i
  · subst hj
    rw [appended, if_pos rfl, appendTo_self, List.append_assoc]
  · rw [appended, if_neg fun h => hj (inumber_inj h).symm, appendTo_of_ne hj, List.nil_append]

theorem calls_spec (cs : List Call) (h : Inv data s) (hnext : s.freeinode.toNat = next)
    (hempty : ∀ i : Inum, next ≤ i.val → i.val < next + iallocs cs → data i = []) (hvalid : Valid next cs) :
    Finishes (fun _ => TooMuch fun j => data j ++ appended cs j) (cs.forM Call.run) s fun _ t =>
      Inv (fun j => data j ++ appended cs j) t := by
  induction cs generalizing data next s with
  | nil =>
    simp only [appended, List.append_nil]
    exact .pure h
  | cons c cs ih =>
    cases c with
    | ialloc type =>
      obtain ⟨hlt, hvalid⟩ := hvalid
      rw [iallocs] at hempty
      have halloc := ialloc_spec (E := fun _ => TooMuch fun j => data j ++ appended cs j) (i := ⟨next, hlt⟩) h hnext
        (hempty _ le_rfl (Nat.lt_add_of_pos_right (Nat.succ_pos _))) type
      refine .bind (halloc.mono fun _ _ ht => ht.2).discard fun _ t ht => ?_
      have hnext : t.freeinode.toNat = next + 1 := ht.2
      exact ih ht.1 hnext (fun i hge hi => hempty i (by omega) (by omega)) hvalid
    | iappend inum p =>
      obtain ⟨hlt, hdone, hvalid⟩ := hvalid
      obtain ⟨i, rfl⟩ : ∃ i, inum = inumber i :=
        ⟨⟨inum.toNat, hlt⟩, BitVec.eq_of_toNat_eq (toNat_inumber ⟨inum.toNat, hlt⟩).symm⟩
      rw [toNat_inumber] at hdone
      simp only [appended_iappend]
      have hiappend := (iappend_spec h i p).weaken fun _ htoo =>
        htoo.mono fun j => List.length_append.symm ▸ Nat.le_add_right (appendTo data i p j).length (appended cs j).length
      refine hiappend.bind fun _ t ht => ?_
      refine ih ht.1 (by rw [ht.2, hnext]) (fun j hge hj => ?_) hvalid
      rw [appendTo_of_ne (by rintro rfl; omega)]
      exact hempty j hge hj

theorem disk_blank (h : b ≠ 1) : blank.disk b = .zero := by
  simp only [blank, Function.update_of_ne h]

theorem dinode_blank (i : Inum) : sb.dinode blank.disk i = ⟨0, 0, 0, fun _ => 0⟩ := by
  have hblock : blank.disk (sb.iblock i) = .zero := by
    refine disk_blank fun heq => ?_
    have hi := (toNat_iblock i).1
    rw [heq] at hi
    exact absurd hi (by decide)
  simp only [Superblock.dinode, Superblock.field, hblock, Block.word_zero]

theorem num_blank (q : Place) : (boot blank.disk : Store sb).num q = 0 := by
  have haddrs : ∀ i k, ((boot blank.disk : Store sb).inode i).addrs k = 0 := fun i k =>
    congrFun (congrArg Inode.addrs (dinode_blank i)) k
  cases q with
  | addr i k => exact haddrs i k
  | entry i j => exact if_pos (haddrs i 12)

theorem inv_blank : Inv (fun _ => []) blank := by
  have howns : Owns 0 Area (Fresh blank.freeblock.toNat) (boot blank.disk : Store sb).num fun _ => True :=
    ⟨fun q _ hq => absurd (num_blank q) hq, fun q _ _ _ hq => absurd (num_blank q) hq,
      fun q _ hq => absurd (num_blank q) hq, fun b hb => hb⟩
  have hblocks : blocks (fun _ => []) = 0 := Finset.sum_eq_zero fun _ _ => (by decide : need 0 = 0)
  refine ⟨⟨howns, fun q => ?_, fun b hb => disk_blank ?_, fun q hq => absurd hq (Nat.not_lt_zero _)⟩, ?_, by decide,
    fun _ => Nat.zero_le _, fun i => ?_, fun i => ?_, rfl⟩
  · rw [num_blank]
    exact iff_of_false (fun h => h rfl) (Nat.not_lt_zero _)
  · rintro rfl
    exact absurd hb (by unfold Fresh; decide)
  · rw [hblocks]
    rfl
  · rw [dinode_blank]
    rfl
  · rw [dinode_blank]
    decide

theorem calls_blank (hvalid : Valid 1 cs) :
    Finishes (fun _ => TooMuch (appended cs)) (cs.forM Call.run) blank fun _ t => Inv (appended cs) t :=
  calls_spec cs inv_blank rfl (fun _ _ _ => rfl) hvalid

theorem not_tooMuch (hshort : ∀ i, (data i).length ≤ 71680)
    (hfit : nmeta + blocks data ≤ 1000) : ¬ TooMuch data := by
  rintro (⟨i, hi⟩ | hfull)
  · exact absurd (hshort i) (Nat.not_le.mpr hi)
  · exact absurd hfit (Nat.not_le.mpr hfull)

def readsb (disk : Word → Block) : List Word := (List.finRange 7).map fun k => (disk 1).word (k.castLE (by decide))

theorem readi_of_iappend (cs : List Call) (hvalid : Valid 1 cs) (hshort : ∀ i, (appended cs i).length ≤ 71680)
    (hfit : nmeta + blocks (appended cs) ≤ 1000) :
    ∃ s, cs.forM Call.run blank = .ok ((), s) ∧ s.freeblock.toNat = nmeta + blocks (appended cs) ∧
      readsb s.disk = [1000, 941, 200, 30, 2, 32, 58] ∧
      ∀ i off n, readi i off n (boot s.disk) = .ok (expected (appended cs i) off n, boot s.disk) := by
  obtain ⟨_, s, hs, hinv⟩ := (calls_blank hvalid).exists_ok fun _ => not_tooMuch hshort hfit
  refine ⟨s, hs, hinv.count, ?_, readi_eq hinv⟩
  rw [readsb, hinv.super]
  decide

def twoFiles : List Call :=
  [.ialloc .file, .ialloc .file, .iappend 1 (List.replicate 300 104), .iappend 2 [1, 2, 3],
    .iappend 1 (List.replicate 300 105), .iappend 2 [4]]

theorem readi_of_iappend_twoFiles :
    ∃ s, twoFiles.forM Call.run blank = .ok ((), s) ∧ s.freeblock.toNat = nmeta + 3 ∧
      (∀ off n, readi (⟨1, by decide⟩ : Inum) off n (boot s.disk) =
        .ok (expected (List.replicate 300 104 ++ List.replicate 300 105) off n, boot s.disk)) ∧
      ∀ off n, readi (⟨2, by decide⟩ : Inum) off n (boot s.disk) = .ok (expected [1, 2, 3, 4] off n, boot s.disk) := by
  have hshort : ∀ i : Inum, (appended twoFiles i).length ≤ 71680 := by decide +kernel
  have hblocks : blocks (appended twoFiles) = 3 := by decide +kernel
  have hvalid : Valid 1 twoFiles := by
    simp only [twoFiles, Valid]
    decide +kernel
  obtain ⟨s, hs, hfree, _, hread⟩ := readi_of_iappend twoFiles hvalid hshort (by rw [hblocks]; decide)
  have hone : appended twoFiles ⟨1, by decide⟩ = List.replicate 300 104 ++ List.replicate 300 105 := by decide +kernel
  have htwo : appended twoFiles ⟨2, by decide⟩ = [1, 2, 3, 4] := by decide +kernel
  rw [← hone, ← htwo]
  exact ⟨s, hs, by rw [hfree, hblocks], hread _, hread _⟩

end Xv6.Mkfs
