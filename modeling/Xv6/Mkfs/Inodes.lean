import Xv6.Mkfs.Append

namespace Xv6.Mkfs

open Disk Lib Prog

def inumber (i : Inum) : Word := BitVec.ofNat 32 i

variable {α : Type} {s : Image} {i j : Inum} {ip din : Inode} {disk : Word → Block} {data : Inum → List Byte}

theorem toNat_inumber (i : Inum) : (inumber i).toNat = i.val := by
  have hi : i.val < 200 := i.isLt
  rw [inumber, BitVec.toNat_ofNat]
  omega

theorem iblock_inumber (i : Inum) : iblock (inumber i) = sb.iblock i := by
  apply BitVec.eq_of_toNat_eq
  have hi : i.val < 200 := i.isLt
  rw [Superblock.iblock_toNat, iblock, BitVec.toNat_add, BitVec.toNat_udiv, toNat_inumber]
  change (i.val / 8 + 32) % 2 ^ 32 = i.val / 8 + 32
  omega

theorem toNat_iblock (i : Inum) : 32 ≤ (sb.iblock i).toNat ∧ (sb.iblock i).toNat < 58 := by
  have hi : i.val < 200 := i.isLt
  rw [Superblock.iblock_toNat]
  change 32 ≤ i.val / 8 + 32 ∧ i.val / 8 + 32 < 58
  omega

theorem not_area_iblock (i : Inum) : ¬ Area (sb.iblock i) := by
  intro harea
  have harea : 59 ≤ (sb.iblock i).toNat := harea
  have := (toNat_iblock i).2
  omega

theorem rinode_bind (hf : Finishes E (f (sb.dinode s.disk i)) s R) :
    Finishes E (rinode (inumber i) >>= f) s R := by
  have hi := (toNat_iblock i).2
  refine .bind (Q := fun ip t => ip = sb.dinode s.disk i ∧ t = s) ?_ ?_
  · unfold rinode
    rw [iblock_inumber]
    refine rsect_bind (by omega) (.pure ⟨?_, rfl⟩)
    rw [toNat_inumber]
    rfl
  · rintro _ _ ⟨rfl, rfl⟩
    exact hf

theorem winode_spec (h : Q () { s with disk := sb.setDinode s.disk i ip }) :
    Finishes E (winode (inumber i) ip) s Q := by
  have hi := (toNat_iblock i).2
  unfold winode
  rw [iblock_inumber]
  refine rsect_bind (by omega) (wsect_spec (by omega) ?_)
  rw [toNat_inumber]
  exact h

structure Inv (data : Inum → List Byte) (s : Image) : Prop where
  holds : Holds data (InUse data) s.freeblock.toNat (boot s.disk)
  count : s.freeblock.toNat = nmeta + blocks data
  le : s.freeblock.toNat ≤ 1000
  short : ∀ i, (data i).length ≤ 71680
  size : ∀ i, (sb.dinode s.disk i).size.toNat = (data i).length
  type : ∀ i, (sb.dinode s.disk i).type ≠ 3
  super : s.disk 1 = blank.disk 1

theorem inode_cached (disk : Word → Block) (i j : Inum) :
    (cached disk i (sb.dinode disk i)).inode j = sb.dinode disk j := by
  by_cases hj : j = i
  · subst hj
    exact inode_cached_self
  · simp [cached, Store.inode, hj]

theorem num_eq_of_addrs {st st' : Store sb} (haddrs : ∀ j, (st'.inode j).addrs = (st.inode j).addrs)
    (hdisk : ∀ b, Area b → st'.disk b = st.disk b) (harea : ∀ p, st.num p ≠ 0 → Area (st.num p)) (q : Place) :
    st'.num q = st.num q := by
  cases q with
  | addr j k => exact congrFun (haddrs j) k
  | entry j l =>
    simp only [Store.num, haddrs]
    split
    · rfl
    · next hne => rw [hdisk ((st.inode j).addrs 12) (harea (.addr j 12) hne)]

theorem Holds.area (h : Holds data S fb st) (q : Place)
    (hq : st.num q ≠ 0) : Area (st.num q) := h.owns.inArea q trivial hq

theorem Inv.appending (h : Inv data s) (i : Inum) :
    Appending data i (sb.dinode s.disk i) (sb.dinode s.disk i).size s where
  holds := by
    refine h.holds.of_num (num_eq_of_addrs (fun j => ?_) (fun _ _ => rfl) h.holds.area) (fun _ _ => rfl) ?_
    · rw [inode_cached]
      rfl
    · rw [h.count]
      exact Nat.le_add_right ..
  count := h.count
  le := h.le
  off := h.size i
  short := h.short i

theorem setDinode_area (hb : Area b) : sb.setDinode disk i ip b = disk b := by
  refine Function.update_of_ne ?_ ..
  rintro rfl
  exact not_area_iblock i hb

theorem setDinode_one : sb.setDinode disk i ip 1 = disk 1 := by
  refine Function.update_of_ne (fun heq => ?_) ..
  have hi := (toNat_iblock i).1
  rw [← heq] at hi
  exact absurd hi (by decide)

theorem Kept.dinode (h : Kept s t din din') (j : Inum) : sb.dinode t.disk j = sb.dinode s.disk j :=
  Superblock.dinode_congr (h.disk _ (not_area_iblock j))

theorem inv_setDinode (hholds : Holds data (InUse data) s.freeblock.toNat (cached s.disk i din))
    (hcount : s.freeblock.toNat = nmeta + blocks data) (hle : s.freeblock.toNat ≤ 1000)
    (haddrs : ip.addrs = din.addrs) (hself : ip.size.toNat = (data i).length ∧ (data i).length ≤ 71680 ∧ ip.type ≠ 3)
    (hothers : ∀ j ≠ i, (sb.dinode s.disk j).size.toNat = (data j).length ∧ (data j).length ≤ 71680 ∧
      (sb.dinode s.disk j).type ≠ 3) (hsuper : s.disk 1 = blank.disk 1) :
    Inv data { s with disk := sb.setDinode s.disk i ip } := by
  have hdinode : ∀ j ≠ i, sb.dinode (sb.setDinode s.disk i ip) j = sb.dinode s.disk j := fun j hj =>
    Superblock.dinode_setDinode_of_ne hj ip
  have hip : sb.dinode (sb.setDinode s.disk i ip) i = ip := Superblock.dinode_setDinode_self ip
  refine ⟨?_, hcount, hle, fun j => ?_, fun j => ?_, fun j => ?_, setDinode_one.trans hsuper⟩
  · refine hholds.of_num (num_eq_of_addrs (fun j => ?_) (fun _ => setDinode_area) hholds.area)
      (fun _ => setDinode_area) (by rw [hcount]; exact Nat.le_add_right ..)
    by_cases hj : j = i
    · subst hj
      rw [inode_cached_self, ← haddrs]
      exact congrArg Inode.addrs hip
    · refine (congrArg Inode.addrs (hdinode j hj)).trans ?_
      simp [cached, Store.inode, hj]
  · by_cases hj : j = i
    · exact hj ▸ hself.2.1
    · exact (hothers j hj).2.1
  · by_cases hj : j = i
    · subst hj
      rw [hip]
      exact hself.1
    · rw [hdinode j hj]
      exact (hothers j hj).1
  · by_cases hj : j = i
    · subst hj
      rw [hip]
      exact hself.2.2
    · rw [hdinode j hj]
      exact (hothers j hj).2.2

theorem iappend_spec (h : Inv data s) (i : Inum) (p : List Byte) :
    Finishes (fun _ => TooMuch (appendTo data i p)) (iappend (inumber i) p) s fun _ t =>
      Inv (appendTo data i p) t ∧ t.freeinode = s.freeinode := by
  refine rinode_bind ((appendLoop_spec p.length le_rfl (h.appending i)).bind fun r t hr => ?_)
  obtain ⟨hr, hkept⟩ := hr
  refine winode_spec ⟨inv_setDinode hr.holds hr.count hr.le rfl ⟨hr.off, hr.short, ?_⟩ (fun j hj => ?_) ?_, ?_⟩
  · have htype := h.type i
    rwa [Inode.type, ← hkept.typeMajor] at htype
  · rw [appendTo_of_ne hj, hkept.dinode]
    exact ⟨h.size j, h.short j, h.type j⟩
  · rw [hkept.disk 1 (by unfold Area; decide)]
    exact h.super
  · exact hkept.freeinode

theorem ialloc_spec (h : Inv data s) (hi : s.freeinode.toNat = i.val) (hempty : data i = []) (kind : Kind) :
    Finishes E (ialloc kind) s fun r t => r = inumber i ∧ Inv data t ∧ t.freeinode.toNat = i.val + 1 := by
  have hinumber : s.freeinode = inumber i := BitVec.eq_of_toNat_eq (hi.trans (toNat_inumber i).symm)
  have hlt : i.val < 200 := i.isLt
  refine .get (.set ?_)
  rw [hinumber]
  refine .bind (winode_spec (Q := fun _ t => Inv data t ∧ t.freeinode.toNat = i.val + 1) ?_) fun _ t ht =>
    Finishes.pure ⟨rfl, ht.1, ht.2⟩
  have hfree : ∀ k, (sb.dinode s.disk i).addrs k = 0 := by
    intro k
    by_contra hne
    have huse : InUse data (.addr i k) := (h.holds.used (.addr i k)).mp hne
    rw [inUse_addr (n := 0) (by rw [hempty]; rfl)] at huse
    omega
  refine ⟨?_, ?_⟩
  · have happ := h.appending i
    refine inv_setDinode (s := { s with freeinode := inumber i + 1 }) happ.holds h.count h.le ?_ ⟨?_, ?_, ?_⟩ (fun j _ => ?_) h.super
    · exact (funext hfree).symm
    · rw [hempty]
      rfl
    · exact h.short i
    · cases kind <;> decide
    · exact ⟨h.size j, h.short j, h.type j⟩
  · dsimp only
    rw [BitVec.toNat_add, toNat_inumber]
    change (i.val + 1) % 2 ^ 32 = i.val + 1
    omega

end Xv6.Mkfs
