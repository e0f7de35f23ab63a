import Xv6.Disk.Contents
import Xv6.Lib.Overwrite

namespace Xv6.Disk

open Lib Prog

variable {sb : Superblock} {i j : Fin sb.ninodes} {s t : Store sb}

def slice (bytes : List Byte) (off n : Word) : Option (List Byte) :=
  if bytes.length < off.toNat ∨ 2 ^ 32 ≤ off.toNat + n.toNat then none
  else some ((bytes.drop off.toNat).take n.toNat)

@[simp] theorem Store.length_contents : (s.contents i).length = (s.inode i).size.toNat := by
  rw [contents, List.length_map, List.length_range]

section congr

variable (hdisk : t.disk = s.disk) (hinode : t.inode i = s.inode i)

include hdisk hinode

theorem Store.num_slotOf_congr (bn : Nat) : t.num (slotOf i bn) = s.num (slotOf i bn) := by
  refine Store.num_congr ?_ fun _ => by rw [hdisk]
  rw [inum_slotOf, hinode]

theorem Full.congr (h : Full s i) : Full t i := by
  refine ⟨by rw [hinode]; exact h.size, fun bn hbn => ?_⟩
  rw [hinode] at hbn
  rw [Store.num_slotOf_congr hdisk hinode]
  exact h.block bn hbn

theorem Store.contents_congr : t.contents i = s.contents i := by
  rw [contents, contents, hinode]
  refine List.map_congr_left fun k _ => ?_
  rw [byteAt, byteAt, blockOf, blockOf, Store.num_slotOf_congr hdisk hinode, hdisk]

end congr

theorem ilock_uncached (hi : s.icache i = none) (h : Allocated s i) :
    ilock i s = .ok (⟨⟩, s.setInode i (s.inode i)) := by
  have hget : (MonadState.get : M sb (Store sb)) s = .ok (s, s) := rfl
  refine (bind_ok hget).trans ?_
  rw [hi]
  exact congrFun (if_neg h) s

theorem ilock_runs (h : Allocated s i) :
    ∃ t, ilock i s = .ok (⟨⟩, t) ∧ t.disk = s.disk ∧ ∀ j, t.inode j = s.inode j := by
  have hget : (MonadState.get : M sb (Store sb)) s = .ok (s, s) := rfl
  cases hi : s.icache i with
  | some ip =>
    refine ⟨s, (bind_ok hget).trans ?_, rfl, fun _ => rfl⟩
    rw [hi]
    rfl
  | none =>
    refine ⟨_, ilock_uncached hi h, rfl, fun j => ?_⟩
    by_cases hj : j = i
    · rw [hj, Store.inode_setInode_self]
    · rw [Store.inode_setInode_of_ne hj]

theorem getElem_block (hb : s.num (slotOf i (off / 512)) = b) (hne : b ≠ 0)
    (hm : m ≤ 512 - off % 512) :
    ((List.ofFn (s.disk b)).drop (off % 512)).take m = (List.range m).map fun k => s.byteAt i (off + k) := by
  apply List.ext_getElem
  · simp only [List.length_take, List.length_drop, List.length_ofFn, List.length_map, List.length_range]
    omega
  · intro k hk _
    simp only [List.length_take, List.length_drop, List.length_ofFn] at hk
    simp only [List.getElem_take, List.getElem_drop, List.getElem_ofFn, List.getElem_map, List.getElem_range]
    have hblock : (off + k) / 512 = off / 512 := by omega
    rw [Store.byteAt, hblock, Store.blockOf, hb, if_neg hne]
    congr 1
    apply Fin.ext
    rw [Fin.val_ofNat]
    simp only
    omega

theorem readLoop_reads (hfuel : n ≤ fuel) (hmax : off + n ≤ 71680)
    (hthere : ∀ k, off ≤ k → k < off + n → s.num (slotOf i (k / 512)) ≠ 0) :
    readLoop i fuel off n s = .ok ((List.range n).map fun k => s.byteAt i (off + k), s) := by
  induction fuel generalizing off n with
  | zero =>
    obtain rfl := Nat.le_zero.mp hfuel
    rfl
  | succ fuel ih =>
    unfold readLoop
    by_cases hn : n = 0
    · rw [if_pos hn, hn]
      rfl
    rw [if_neg hn]
    generalize hm : min n (512 - off % 512) = m
    have hne := hthere off le_rfl (by omega)
    have hget : (MonadState.get : M sb (Store sb)) s = .ok (s, s) := rfl
    refine (bind_ok (bmap_there (by omega) hne)).trans ((bind_ok hget).trans ?_)
    have hrest := ih (show n - m ≤ fuel by omega) (show off + m + (n - m) ≤ 71680 by omega)
      fun k hk hk' => hthere k (by omega) (by omega)
    refine (bind_ok hrest).trans ?_
    have hrange : (List.range n).map (fun k => s.byteAt i (off + k)) =
        (List.range m).map (fun k => s.byteAt i (off + k)) ++
          (List.range (n - m)).map fun k => s.byteAt i (off + m + k) := by
      have hn : n = m + (n - m) := by omega
      conv_lhs => rw [hn, List.range_add]
      simp only [List.map_append, List.map_map, Function.comp_def, Nat.add_assoc]
    rw [getElem_block rfl hne (by omega), hrange]
    rfl

theorem readi_slice (htype : (s.inode i).type ≠ 3) (hfull : Full s i) (off n : Word) :
    readi i off n s = .ok (slice (s.contents i) off n, s) := by
  have hsize := hfull.size
  have hoff := off.isLt
  have hn := n.isLt
  have hget : (MonadState.get : M sb (Store sb)) s = .ok (s, s) := rfl
  refine (bind_ok hget).trans ?_
  have hiff : ((s.inode i).type = 3 ∨ (s.inode i).size < off ∨ off + n < off) ↔
      ((s.contents i).length < off.toNat ∨ 2 ^ 32 ≤ off.toNat + n.toNat) := by
    rw [BitVec.lt_def, BitVec.lt_def, BitVec.toNat_add, Store.length_contents, or_iff_right htype]
    omega
  unfold slice
  by_cases hbad : (s.contents i).length < off.toNat ∨ 2 ^ 32 ≤ off.toNat + n.toNat
  · rw [if_pos (hiff.mpr hbad), if_pos hbad]
    rfl
  rw [if_neg (fun hbad' => hbad (hiff.mp hbad')), if_neg hbad]
  rw [Store.length_contents] at hbad
  have hsum : (off + n).toNat = off.toNat + n.toNat := by
    rw [BitVec.toNat_add]
    omega
  have hcut : (if (s.inode i).size < off + n then (s.inode i).size - off else n).toNat =
      min n.toNat ((s.inode i).size.toNat - off.toNat) := by
    split
    · next hlt =>
      rw [BitVec.lt_def, hsum] at hlt
      rw [BitVec.toNat_sub]
      omega
    · next hge =>
      rw [BitVec.lt_def, hsum] at hge
      omega
  rw [hcut]
  have hloop := readLoop_reads (show min n.toNat ((s.inode i).size.toNat - off.toNat) ≤ _ from le_rfl)
    (show off.toNat + _ ≤ 71680 by omega) fun k _ hk => hfull.block (k / 512) (by omega)
  refine (bind_ok hloop).trans ?_
  have hbytes : ((s.contents i).drop off.toNat).take n.toNat =
      (List.range (min n.toNat ((s.inode i).size.toNat - off.toNat))).map fun k => s.byteAt i (off.toNat + k) := by
    apply List.ext_getElem
    · simp
    · intro k _ _
      simp [Store.contents]
  rw [hbytes]
  rfl

def Refused (s : Store sb) (i : Fin sb.ninodes) (off n : Word) : Prop :=
  (s.inode i).size.toNat < off.toNat ∨ 2 ^ 32 ≤ off.toNat + n.toNat ∨ 140 * 512 < off.toNat + n.toNat

theorem refused_iff (htype : (s.inode i).type ≠ 3) :
    ((s.inode i).type = 3 ∨ (s.inode i).size < off ∨ off + n < off ∨ 140 * 512 < off + n) ↔ Refused s i off n := by
  have hoff := off.isLt
  have hn := n.isLt
  have hmax : (140 * 512 : Word).toNat = 71680 := rfl
  rw [Refused, BitVec.lt_def, BitVec.lt_def, BitVec.lt_def, BitVec.toNat_add, hmax, or_iff_right htype]
  omega

theorem writei_refused (htype : (s.inode i).type ≠ 3) (h : Refused s i off n) (src : Nat → Byte) :
    writei i src off n s = .ok (none, s) := by
  have hget : (MonadState.get : M sb (Store sb)) s = .ok (s, s) := rfl
  refine (bind_ok hget).trans ?_
  rw [if_pos ((refused_iff htype).mpr h)]
  rfl

def needed {m : Nat} (i : Fin m) (off n : Nat) : Finset (Slot m) :=
  ((Finset.range 140).filter fun bn => off / 512 ≤ bn ∧ 512 * bn < off + n).image (slotOf i) ∪
    if 12 * 512 < off + n then {.addr i 12} else ∅

section needed

theorem inum_needed (h : p ∈ needed i off n) : p.inum = i := by
  rcases Finset.mem_union.mp h with h | h
  · obtain ⟨bn, -, rfl⟩ := Finset.mem_image.mp h
    exact inum_slotOf
  · split at h
    · rw [Finset.mem_singleton.mp h]
      rfl
    · cases h

theorem slotOf_mem_needed (hlo : off ≤ k) (hhi : k < off + n) (hmax : off + n ≤ 71680) :
    slotOf i (k / 512) ∈ needed i off n := by
  refine Finset.mem_union_left _ (Finset.mem_image_of_mem _ (Finset.mem_filter.mpr ⟨?_, ?_, ?_⟩))
  · rw [Finset.mem_range]
    omega
  · omega
  · omega

theorem indirect_mem_needed (h : 12 * 512 < off + n) : .addr i 12 ∈ needed i off n := by
  refine Finset.mem_union_right _ ?_
  rw [if_pos h]
  exact Finset.mem_singleton_self _

end needed

theorem missing_needed_eq_empty (h : ∀ bn, 512 * bn < off + n → t.num (slotOf i bn) ≠ 0) :
    t.missing (needed i off n) = ∅ := by
  refine Finset.filter_eq_empty_iff.mpr fun p hp => ?_
  rcases Finset.mem_union.mp hp with hp | hp
  · obtain ⟨bn, hbn, rfl⟩ := Finset.mem_image.mp hp
    exact h bn (Finset.mem_filter.mp hbn).2.2
  · split at hp
    · next h12 =>
      have hentry := h 12 (by omega)
      rw [slotOf_of_ge (by decide) (by decide)] at hentry
      rw [Finset.mem_singleton.mp hp]
      exact fun hzero => hentry (if_pos hzero)
    · cases hp

theorem Store.blockOf_congr (hnum : t.num (slotOf i bn) = s.num (slotOf i bn))
    (hdisk : s.num (slotOf i bn) ≠ 0 → t.disk (s.num (slotOf i bn)) = s.disk (s.num (slotOf i bn))) :
    t.blockOf i bn = s.blockOf i bn := by
  rw [blockOf, hnum, blockOf]
  split
  · rfl
  · next hne => exact hdisk hne

structure Wrote (s : Store sb) (i : Fin sb.ninodes) (src : Nat → Byte) (off n : Nat) (t : Store sb) : Prop where
  inv : Inv t
  locked : (t.icache i).isSome
  typeMajor : (t.inode i).typeMajor = (s.inode i).typeMajor
  minorNlink : (t.inode i).minorNlink = (s.inode i).minorNlink
  size : (t.inode i).size.toNat = max (s.inode i).size.toNat (off + n)
  full : Full t i
  contents : t.contents i = overwrite (s.contents i) off n src
  saved : sb.dinode s.disk i = s.inode i → sb.dinode t.disk i = t.inode i
  inode : ∀ j ≠ i, t.inode j = s.inode j
  other : ∀ j ≠ i, Allocated s j → t.contents j = s.contents j ∧ (Full s j → Full t j)

theorem contents_eq_overwrite (hoff : off ≤ (s.inode i).size.toNat)
    (hsize : (t.inode i).size.toNat = max (s.inode i).size.toNat (off + n))
    (hbyte : ∀ k < (t.inode i).size.toNat,
      t.byteAt i k = if off ≤ k ∧ k < off + n then src (k - off) else s.byteAt i k) :
    t.contents i = overwrite (s.contents i) off n src := by
  have hlen : off ≤ (s.contents i).length := by rwa [Store.length_contents]
  apply List.ext_getElem?
  intro k
  rw [getElem?_overwrite hlen]
  by_cases hk : k < (t.inode i).size.toNat
  · have hget : (t.contents i)[k]? = some (t.byteAt i k) := by
      rw [Store.contents, List.getElem?_map, List.getElem?_range hk, Option.map_some]
    rw [hget, hbyte k hk]
    split
    · rfl
    · next hout =>
      rw [Store.contents, List.getElem?_map, List.getElem?_range (by omega), Option.map_some]
  · rw [if_neg (by omega), List.getElem?_eq_none, List.getElem?_eq_none]
    · rw [Store.length_contents]
      omega
    · rw [Store.length_contents]
      omega

section

variable {live : Fin sb.ninodes → Prop} {src : Nat → Byte} {off n : Word}

theorem Written.full {N : Finset (Slot sb.ninodes)} {B : Fin sb.ninodes → Prop} {off n : Nat}
    (h : Written live B N i src off n s t) (hfull : Full s i) (hoff : off ≤ (s.inode i).size.toNat) {bn : Nat}
    (hbn : 512 * bn < max (s.inode i).size.toNat (off + n)) : t.num (slotOf i bn) ≠ 0 := by
  by_cases hlo : 512 * bn < (s.inode i).size.toNat
  · have hne := hfull.block bn hlo
    have hlive : live (slotOf i bn).inum := by
      rw [inum_slotOf]
      exact h.work.live_self
    rwa [h.kept.num _ hlive hne]
  · have hthere := h.there (512 * bn) (by omega) (by omega)
    rwa [Nat.mul_div_cancel_left bn (by decide)] at hthere

theorem Written.other {N : Finset (Slot sb.ninodes)} {B : Fin sb.ninodes → Prop} {off n : Nat} {u : Store sb}
    (h : Written live B N i src off n s t) (hj : j ≠ i) (hlive : live j) (hinode : u.inode j = t.inode j)
    (hnum : ∀ bn, u.num (slotOf j bn) = t.num (slotOf j bn))
    (hdisk : ∀ bn, t.num (slotOf j bn) ≠ 0 → u.disk (t.num (slotOf j bn)) = t.disk (t.num (slotOf j bn))) :
    u.contents j = s.contents j ∧ (Full s j → Full u j) := by
  have hsame : u.inode j = s.inode j := hinode.trans (h.kept.other j hj)
  have hslot : ∀ bn, u.num (slotOf j bn) = s.num (slotOf j bn) := fun bn =>
    (hnum bn).trans (h.kept.apart _ (by rwa [inum_slotOf]) (by rwa [inum_slotOf]))
  constructor
  · rw [Store.contents, Store.contents, hsame]
    refine List.map_congr_left fun k _ => ?_
    rw [Store.byteAt, Store.byteAt, Store.blockOf_congr (hnum _) (hdisk _), h.kept.block j hj hlive]
  · intro hfull
    exact ⟨by rw [hsame]; exact hfull.size, fun bn hbn => by rw [hslot]; exact hfull.block bn (by rwa [hsame] at hbn)⟩

theorem Inv.work (h : Inv s) (hlock : (s.icache i).isSome) :
    Work (Allocated s) (fun _ => True) (slots (Allocated s)) i s :=
  ⟨h.owns, fun _ => Iff.rfl, h.cached, fun j ip _ => h.backed j ip, hlock⟩

theorem writeLoop_accepted (hwork : Work (Allocated s) (fun _ => True) (slots (Allocated s)) i s)
    (hok : ¬Refused s i off n) :
    Finishes (Short (needed i off.toNat n.toNat) s) (writeLoop i n.toNat src off.toNat n.toNat) s fun _ t =>
      Written (Allocated s) (fun _ => True) (needed i off.toNat n.toNat) i src off.toNat n.toNat s t := by
  have hmax : off.toNat + n.toNat ≤ 71680 := by
    unfold Refused at hok
    omega
  have hneeded : ∀ p ∈ needed i off.toNat n.toNat, Allocated s p.inum := fun p hp => by
    rw [inum_needed hp]
    exact hwork.live_self
  exact writeLoop_writes src hwork hneeded le_rfl hmax (fun k hk hk' => slotOf_mem_needed hk hk' hmax)
    fun k hk hk' h12 => indirect_mem_needed (by omega)

theorem writei_writes (src : Nat → Byte) (h : Inv s) (hlock : (s.icache i).isSome) (htype : (s.inode i).type ≠ 3) (hfull : Full s i)
    (hok : ¬Refused s i off n) :
    Finishes (Short (needed i off.toNat n.toNat) s) (writei i src off n) s fun r t =>
      r = some n ∧ Wrote s i src off.toNat n.toNat t := by
  have hwork := h.work hlock
  obtain ⟨hoff, hover, hmax⟩ : off.toNat ≤ (s.inode i).size.toNat ∧ off.toNat + n.toNat < 2 ^ 32 ∧
      off.toNat + n.toNat ≤ 71680 := by
    unfold Refused at hok
    omega
  refine .get ?_
  rw [if_neg fun hbad => hok ((refused_iff htype).mp hbad)]
  refine (writeLoop_accepted hwork hok).bind fun _ t ht => .get ?_
  have hsum : (off + n).toNat = off.toNat + n.toNat := by
    rw [BitVec.toNat_add]
    omega
  have hgrown : 0 < n ∧ (t.inode i).size < off + n ↔ (s.inode i).size.toNat < off.toNat + n.toNat := by
    rw [BitVec.lt_def, BitVec.lt_def, hsum, ht.kept.size, show (0 : Word).toNat = 0 from rfl]
    omega
  split
  · next hgrow =>
    rw [hgrown] at hgrow
    refine .set ?_
    generalize hv : t.setInode i { t.inode i with size := off + n } = v
    have hvwork : Work (Allocated s) (fun _ => True) (slots (Allocated s)) i v := hv ▸ ht.work.setSize _
    have hvself : v.inode i = { t.inode i with size := off + n } := by rw [← hv, Store.inode_setInode_self]
    have hvne : ∀ j ≠ i, v.inode j = t.inode j := fun j hj => by rw [← hv, Store.inode_setInode_of_ne hj]
    have hvdisk : v.disk = t.disk := by rw [← hv]; rfl
    have hvnum : ∀ p, v.num p = t.num p := fun p => by rw [← hv, Store.num_setSize]
    have hrun : iupdate i v = .ok (⟨⟩, { v with disk := sb.setDinode v.disk i (v.inode i) }) := rfl
    have hu := hvwork.updated
    generalize ({ v with disk := sb.setDinode v.disk i (v.inode i) } : Store sb) = u at hrun hu
    refine .run hrun (.pure ⟨rfl, ?_⟩)
    have hself : u.inode i = { t.inode i with size := off + n } := (hu.inode i).trans hvself
    have hnum : ∀ p, Allocated s p.inum → u.num p = t.num p := fun p hp =>
      (hu.num hvwork closed_slots hp).trans (hvnum p)
    have hdisk : ∀ p, Allocated s p.inum → t.num p ≠ 0 → u.disk (t.num p) = t.disk (t.num p) := fun p hp hne => by
      rw [hu.data _ (ht.work.owns.inArea p hp hne), hvdisk]
    have hsize : (u.inode i).size.toNat = max (s.inode i).size.toNat (off.toNat + n.toNat) := by
      rw [hself, hsum]
      omega
    have hlive : ∀ bn, Allocated s (slotOf i bn).inum := fun bn => by
      rw [inum_slotOf]
      exact hwork.live_self
    exact {
      inv := ((hu.work hvwork closed_slots).mono (fun _ _ => .inl trivial) fun p hp _ => hp).inv
      locked := by rw [hu.icache, hvwork.locked]
      typeMajor := by rw [hself, ← ht.kept.typeMajor]
      minorNlink := by rw [hself, ← ht.kept.minorNlink]
      size := hsize
      full := ⟨by rw [hsize]; have := hfull.size; omega, fun bn hbn => by
        rw [hnum _ (hlive bn)]
        exact ht.full hfull hoff (hsize ▸ hbn)⟩
      contents := by
        refine contents_eq_overwrite hoff hsize fun k hk => ?_
        rw [Store.byteAt, Store.blockOf_congr (hnum _ (hlive _)) (hdisk _ (hlive _))]
        exact ht.byte k (by have := hfull.size; omega)
      saved := fun _ => hu.self.trans (hu.inode i).symm
      inode := fun j hj => by rw [hu.inode, hvne j hj, ht.kept.other j hj]
      other := fun j hj hjlive => by
        have hslot : ∀ bn, Allocated s (slotOf j bn).inum := fun bn => by rwa [inum_slotOf]
        exact ht.other hj hjlive ((hu.inode j).trans (hvne j hj)) (fun bn => hnum _ (hslot bn)) fun bn => hdisk _ (hslot bn) }
  · next hgrow =>
    rw [hgrown] at hgrow
    refine .pure ⟨rfl, ?_⟩
    have hsize : (t.inode i).size.toNat = max (s.inode i).size.toNat (off.toNat + n.toNat) := by
      rw [ht.kept.size]
      omega
    exact {
      inv := ht.work.inv
      locked := ht.work.locked
      typeMajor := ht.kept.typeMajor
      minorNlink := ht.kept.minorNlink
      size := hsize
      full := ⟨by rw [ht.kept.size]; exact hfull.size, fun bn hbn => ht.full hfull hoff (hsize ▸ hbn)⟩
      contents := contents_eq_overwrite hoff hsize fun k hk => ht.byte k (by have := hfull.size; omega)
      -- every block is there already, so that the inode in memory does not change either
      saved := fun hs => by
        rw [ht.kept.dinode, hs, ht.same fun k hk hk' => hfull.block _ (by omega)]
      inode := ht.kept.other
      other := fun j hj hjlive => ht.other hj hjlive rfl (fun _ => rfl) fun _ _ => rfl }

theorem writei_short (src : Nat → Byte) (h : Inv s) (hlock : (s.icache i).isSome) (htype : (s.inode i).type ≠ 3) (hfull : Full s i)
    (hok : ¬Refused s i off n) (hshort : s.freeCount < (s.missing (needed i off.toNat n.toNat)).card) :
    ∃ e, writei i src off n s = .error e := by
  have hoff : off.toNat ≤ (s.inode i).size.toNat := by
    unfold Refused at hok
    omega
  have hget : (MonadState.get : M sb (Store sb)) s = .ok (s, s) := rfl
  have hwrite : writei i src off n s =
      (writeLoop i n.toNat src off.toNat n.toNat >>= fun _ => do
        let s ← get
        if 0 < n ∧ (s.inode i).size < off + n then do
          set (s.setInode i { s.inode i with size := off + n })
          iupdate i
          return some n
        else return some n) s := by
    refine (bind_ok hget).trans ?_
    rw [if_neg fun hbad => hok ((refused_iff htype).mp hbad)]
  rw [hwrite]
  cases hrun : writeLoop i n.toNat src off.toNat n.toNat s with
  | error e => exact ⟨e, bind_error hrun⟩
  | ok r =>
    have ht := (writeLoop_accepted (h.work hlock) hok).of_ok hrun
    have hnone := missing_needed_eq_empty fun bn (hbn : 512 * bn < off.toNat + n.toNat) =>
      ht.full hfull hoff (lt_of_lt_of_le hbn (le_max_right _ _))
    have hpaid := ht.paid
    rw [Paid, hnone, Finset.card_empty] at hpaid
    omega

theorem inode_is_byte_array (h : Inv s) (hlock : (s.icache i).isSome) (htype : (s.inode i).type ≠ 3) (hfull : Full s i) :
    (∀ off n, readi i off n s = .ok (slice (s.contents i) off n, s)) ∧
      ∀ (src : Nat → Byte) (off n : Word),
        (Refused s i off n → writei i src off n s = .ok (none, s)) ∧
        (¬Refused s i off n → (s.missing (needed i off.toNat n.toNat)).card ≤ s.freeCount →
          ∃ t, writei i src off n s = .ok (some n, t) ∧ Wrote s i src off.toNat n.toNat t ∧
            ∀ off' n', readi i off' n' t = .ok (slice (overwrite (s.contents i) off.toNat n.toNat src) off' n', t)) := by
  refine ⟨readi_slice htype hfull, fun src off n => ⟨fun hbad => writei_refused htype hbad src, fun hok hroom => ?_⟩⟩
  obtain ⟨r, t, hrun, rfl, ht⟩ := (writei_writes src h hlock htype hfull hok).exists_ok fun e he =>
    absurd hroom (Nat.not_le.mpr he.2)
  refine ⟨t, hrun, ht, fun off' n' => ?_⟩
  rw [← ht.contents]
  refine readi_slice ?_ ht.full off' n'
  rwa [Inode.type, ht.typeMajor]

def tinyFile : Fin tiny.ninodes := (1 : Fin 2)

def tinyLocked : Store tiny := (boot tinyDisk).setInode tinyFile ((boot tinyDisk).inode tinyFile)

theorem inode_is_byte_array_tiny :
    ∃ t, writei tinyFile (BitVec.ofNat 8) 0 600 tinyLocked = .ok (some 600, t) ∧
      readi tinyFile 510 4 t = .ok (some [254, 255, 0, 1], t) := by
  have hallocated : Allocated (boot tinyDisk) tinyFile := by
    rw [Allocated]
    decide +kernel
  have hwork := (ilock_ends (inv_boot owned_tiny) tinyFile).of_ok (ilock_uncached rfl hallocated)
  have hsize : (tinyLocked.inode tinyFile).size = 0 := by decide +kernel
  have htype : (tinyLocked.inode tinyFile).type ≠ 3 := by decide +kernel
  have hfull : Full tinyLocked tinyFile := by
    refine ⟨by rw [hsize]; decide, fun bn hbn => ?_⟩
    rw [hsize] at hbn
    exact absurd hbn (Nat.not_lt_zero _)
  have hok : ¬Refused tinyLocked tinyFile 0 600 := by
    rw [Refused, hsize]
    decide
  have hroom : (tinyLocked.missing (needed tinyFile 0 600)).card ≤ tinyLocked.freeCount := by decide +kernel
  have harray := inode_is_byte_array (s := tinyLocked) hwork.inv hwork.locked htype hfull
  obtain ⟨t, hrun, -, hread⟩ := (harray.2 (BitVec.ofNat 8) 0 600).2 hok hroom
  refine ⟨t, hrun, (hread 510 4).trans ?_⟩
  have hempty : tinyLocked.contents tinyFile = [] := by
    rw [Store.contents, hsize]
    rfl
  have hslice : slice (overwrite [] 0 600 (BitVec.ofNat 8)) 510 4 = some [254, 255, 0, 1] := by decide +kernel
  rw [hempty, ← hslice]
  rfl

end

end Xv6.Disk
