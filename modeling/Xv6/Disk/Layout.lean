import Xv6.Disk.Block

namespace Xv6.Disk

open Function

/-- The part of the super block that `fs.c` reads, and the order of the areas.  A block holds
`IPB` = 8 inodes or `BPB` = 4096 bits. -/
structure Superblock where
  size : Nat
  nblocks : Nat
  ninodes : Nat
  inodestart : Nat
  bmapstart : Nat
  inodes_le : inodestart + ninodes / 8 + 1 ≤ bmapstart
  bmap_le : bmapstart + size / 4096 + 1 + nblocks ≤ size
  size_lt : size < 2 ^ 31

/-- An inode as on the disk and as in memory, up to the bookkeeping of the cache.  The first
two words hold two `short`s each. -/
structure Inode where
  typeMajor : Word
  minorNlink : Word
  size : Word
  addrs : Fin 13 → Word

namespace Inode

def type (ip : Inode) : BitVec 16 := ip.typeMajor.extractLsb' 0 16

def words (ip : Inode) : List Word := [ip.typeMajor, ip.minorNlink, ip.size] ++ List.ofFn ip.addrs

theorem length_words (ip : Inode) : ip.words.length = 16 := by
  simp [words]

end Inode

namespace Superblock

variable (sb : Superblock)

def InData (b : Word) : Prop := sb.size - sb.nblocks ≤ b.toNat ∧ b.toNat < sb.size

instance (b : Word) : Decidable (sb.InData b) := inferInstanceAs (Decidable (_ ∧ _))

def bblock (b : Nat) : Word := BitVec.ofNat 32 (b / 4096 + sb.bmapstart)

def iblock (i : Nat) : Word := BitVec.ofNat 32 (i / 8 + sb.inodestart)

def bit (disk : Word → Block) (b : Nat) : Bool :=
  (disk (sb.bblock b) (Fin.ofNat 512 (b % 4096 / 8))).getLsbD (b % 8)

def putBit (x : Byte) (k : Nat) (v : Bool) : Byte := if v then x ||| 1#8 <<< k else x &&& ~~~(1#8 <<< k)

def setBit (disk : Word → Block) (b : Nat) (v : Bool) : Word → Block :=
  update disk (sb.bblock b)
    (update (disk (sb.bblock b)) (Fin.ofNat 512 (b % 4096 / 8))
      (putBit (disk (sb.bblock b) (Fin.ofNat 512 (b % 4096 / 8))) (b % 8) v))

def field (disk : Word → Block) (i : Fin sb.ninodes) (m : Nat) : Word :=
  (disk (sb.iblock i)).word (Fin.ofNat 128 (16 * (i % 8) + m))

def dinode (disk : Word → Block) (i : Fin sb.ninodes) : Inode where
  typeMajor := sb.field disk i 0
  minorNlink := sb.field disk i 1
  size := sb.field disk i 2
  addrs := fun k => sb.field disk i (3 + k)

def setDinode (disk : Word → Block) (i : Fin sb.ninodes) (ip : Inode) : Word → Block :=
  update disk (sb.iblock i) ((disk (sb.iblock i)).setWords (16 * (i % 8)) ip.words)

variable {sb}

theorem bblock_toNat (hb : b < sb.size) : (sb.bblock b).toNat = b / 4096 + sb.bmapstart := by
  have hsize := sb.size_lt
  have hbmap := sb.bmap_le
  have hdiv : b / 4096 ≤ sb.size / 4096 := Nat.div_le_div_right (Nat.le_of_lt hb)
  rw [bblock, BitVec.toNat_ofNat]
  exact Nat.mod_eq_of_lt (by omega)

theorem iblock_toNat (i : Fin sb.ninodes) : (sb.iblock i).toNat = i / 8 + sb.inodestart := by
  have hi := i.isLt
  have hinodes := sb.inodes_le
  have hbmap := sb.bmap_le
  have hsize := sb.size_lt
  have hdiv : i.val / 8 ≤ sb.ninodes / 8 := Nat.div_le_div_right (Nat.le_of_lt hi)
  rw [iblock, BitVec.toNat_ofNat]
  exact Nat.mod_eq_of_lt (by omega)

theorem InData.ne_bblock (hd : sb.InData d) (hb : b < sb.size) : d ≠ sb.bblock b := by
  rintro rfl
  have hdiv : b / 4096 ≤ sb.size / 4096 := Nat.div_le_div_right (Nat.le_of_lt hb)
  have hbmap := sb.bmap_le
  obtain ⟨hge, -⟩ := hd
  rw [bblock_toNat hb] at hge
  omega

theorem InData.ne_iblock (hd : sb.InData d) (i : Fin sb.ninodes) : d ≠ sb.iblock i := by
  rintro rfl
  have hdiv : i.val / 8 ≤ sb.ninodes / 8 := Nat.div_le_div_right (Nat.le_of_lt i.isLt)
  have hinodes := sb.inodes_le
  have hbmap := sb.bmap_le
  obtain ⟨hge, -⟩ := hd
  rw [iblock_toNat] at hge
  omega

theorem iblock_ne_bblock (i : Fin sb.ninodes) (hb : b < sb.size) : sb.iblock i ≠ sb.bblock b := by
  intro heq
  have hnat := congrArg BitVec.toNat heq
  rw [iblock_toNat, bblock_toNat hb] at hnat
  have hdiv : i.val / 8 ≤ sb.ninodes / 8 := Nat.div_le_div_right (Nat.le_of_lt i.isLt)
  have hinodes := sb.inodes_le
  omega

theorem InData.ne_zero (hd : sb.InData d) : d ≠ 0 := by
  rintro rfl
  have hbmap := sb.bmap_le
  obtain ⟨hge, -⟩ := hd
  rw [show BitVec.toNat (0 : Word) = 0 from rfl] at hge
  omega

theorem getLsbD_putBit (x : Byte) (hk : k < 8) (hm : m < 8) (v : Bool) :
    (putBit x k v).getLsbD m = if m = k then v else x.getLsbD m := by
  have hone : (1#8 <<< k).getLsbD m = decide (m = k) := by
    simp only [BitVec.getLsbD_shiftLeft, BitVec.getLsbD_one]
    rcases Nat.lt_trichotomy m k with h | h | h
    · simp [h, Nat.ne_of_lt h]
    · simp [h, hk]
    · have hsub : m - k ≠ 0 := by omega
      simp [hsub, Nat.ne_of_gt h]
  cases v with
  | false =>
    simp only [putBit, Bool.false_eq_true, if_false, BitVec.getLsbD_and, BitVec.getLsbD_not, hone, hm]
    split <;> simp [*]
  | true =>
    simp only [putBit, if_true, BitVec.getLsbD_or, hone]
    split <;> simp [*]

theorem bit_setBit_self (v : Bool) : sb.bit (sb.setBit disk b v) b = v := by
  rw [bit, setBit, update_self, update_self,
    getLsbD_putBit _ (Nat.mod_lt _ (by omega)) (Nat.mod_lt _ (by omega)), if_pos rfl]

theorem bit_setBit_of_ne (hb : b < sb.size) (hc : c < sb.size) (hne : c ≠ b) (v : Bool) :
    sb.bit (sb.setBit disk b v) c = sb.bit disk c := by
  rw [bit, setBit]
  by_cases hblock : sb.bblock c = sb.bblock b
  · have hnat := congrArg BitVec.toNat hblock
    rw [bblock_toNat hb, bblock_toNat hc] at hnat
    rw [hblock, update_self]
    by_cases hbyte : Fin.ofNat 512 (c % 4096 / 8) = Fin.ofNat 512 (b % 4096 / 8)
    · have hbyte' : c % 4096 / 8 = b % 4096 / 8 := by
        have := congrArg Fin.val hbyte
        simp only [Fin.val_ofNat] at this
        omega
      have hbit : c % 8 ≠ b % 8 := by omega
      rw [hbyte, update_self, getLsbD_putBit _ (Nat.mod_lt _ (by omega)) (Nat.mod_lt _ (by omega)),
        if_neg hbit, bit, hblock, hbyte]
    · rw [update_of_ne hbyte, bit, hblock]
  · rw [update_of_ne hblock, bit]

theorem bit_update (hd : sb.InData d) (hb : b < sb.size) (data : Block) :
    sb.bit (update disk d data) b = sb.bit disk b := by
  rw [bit, update_of_ne (hd.ne_bblock hb).symm, bit]

theorem bit_setDinode (hb : b < sb.size) (i : Fin sb.ninodes) (ip : Inode) :
    sb.bit (sb.setDinode disk i ip) b = sb.bit disk b := by
  rw [bit, setDinode, update_of_ne (iblock_ne_bblock i hb).symm, bit]

theorem setBit_of_inData (hd : sb.InData d) (hb : b < sb.size) (v : Bool) : sb.setBit disk b v d = disk d :=
  update_of_ne (hd.ne_bblock hb) ..

theorem dinode_congr (h : disk' (sb.iblock i) = disk (sb.iblock i)) :
    sb.dinode disk' i = sb.dinode disk i := by
  simp only [dinode, field, h]

theorem dinode_setBit (hb : b < sb.size) (i : Fin sb.ninodes) (v : Bool) :
    sb.dinode (sb.setBit disk b v) i = sb.dinode disk i :=
  dinode_congr (update_of_ne (iblock_ne_bblock i hb) ..)

theorem dinode_update (hd : sb.InData d) (i : Fin sb.ninodes) (data : Block) :
    sb.dinode (update disk d data) i = sb.dinode disk i :=
  dinode_congr (update_of_ne (hd.ne_iblock i).symm ..)

theorem setDinode_of_inData (hd : sb.InData d) (i : Fin sb.ninodes) (ip : Inode) :
    sb.setDinode disk i ip d = disk d :=
  update_of_ne (hd.ne_iblock i) ..

theorem field_setDinode (hm : m < 16) (i j : Fin sb.ninodes) (ip : Inode) :
    sb.field (sb.setDinode disk i ip) j m = if j = i then ip.words[m]?.getD 0 else sb.field disk j m := by
  have hlen : ip.words.length = 16 := ip.length_words
  have hj : j.val % 8 < 8 := Nat.mod_lt _ (by omega)
  have hidx : (Fin.ofNat 128 (16 * (j.val % 8) + m)).val = 16 * (j.val % 8) + m := Nat.mod_eq_of_lt (by omega)
  rw [field, setDinode]
  by_cases hblock : sb.iblock j = sb.iblock i
  · rw [hblock, update_self, Block.word_setWords (by omega), hidx]
    by_cases hji : j = i
    · subst hji
      rw [if_pos (by omega), if_pos rfl, Nat.add_sub_cancel_left, List.getElem?_eq_getElem (by omega)]
      rfl
    · have hnat := congrArg BitVec.toNat hblock
      rw [iblock_toNat, iblock_toNat] at hnat
      have hne : j.val ≠ i.val := fun h => hji (Fin.ext h)
      rw [if_neg hji, field, hblock]
      split
      · rw [List.getElem?_eq_none (by omega)]
        rfl
      · rfl
  · have hji : j ≠ i := fun h => hblock (by rw [h])
    rw [update_of_ne hblock, if_neg hji, field]

theorem dinode_setDinode_self (ip : Inode) : sb.dinode (sb.setDinode disk i ip) i = ip := by
  have haddrs : ∀ k : Fin 13, ip.words[3 + k.val]?.getD 0 = ip.addrs k := by
    intro k
    rw [Inode.words, List.getElem?_append_right (by simp), List.getElem?_ofFn]
    simp
  simp only [dinode]
  rw [field_setDinode (by omega), field_setDinode (by omega), field_setDinode (by omega)]
  simp only [if_true]
  have hfun : (fun k : Fin 13 => sb.field (sb.setDinode disk i ip) i (3 + k)) = ip.addrs := by
    funext k
    rw [field_setDinode (by omega), if_pos rfl, haddrs]
  rw [hfun]
  rfl

theorem dinode_setDinode_of_ne (h : j ≠ i) (ip : Inode) :
    sb.dinode (sb.setDinode disk i ip) j = sb.dinode disk j := by
  have hfield : ∀ m < 16, sb.field (sb.setDinode disk i ip) j m = sb.field disk j m := fun m hm => by
    rw [field_setDinode hm, if_neg h]
  simp only [dinode]
  rw [hfield 0 (by omega), hfield 1 (by omega), hfield 2 (by omega)]
  congr 1
  funext k
  exact hfield _ (by omega)

end Superblock

end Xv6.Disk
