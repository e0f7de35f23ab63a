import Xv6.Disk.Ownership
import Mathlib.Data.Finset.Card

namespace Xv6.Disk

open Function Lib Prog

variable {sb : Superblock}

section slots

def slotOf (i : Fin n) (bn : Nat) : Slot n :=
  if bn < 12 then .addr i (Fin.ofNat 13 bn) else .entry i (Fin.ofNat 128 (bn - 12))

@[simp] theorem inum_slotOf : (slotOf i bn).inum = i := by
  unfold slotOf
  split <;> rfl

theorem slotOf_ne_indirect : slotOf i bn ≠ .addr j 12 := by
  unfold slotOf
  split
  · next hbn =>
    intro heq
    injection heq with _ hk
    have := congrArg Fin.val hk
    rw [Fin.val_ofNat] at this
    omega
  · rintro ⟨⟩

theorem slotOf_inj (hbn : bn < 140) (hm : m < 140) (h : slotOf i bn = slotOf j m) : i = j ∧ bn = m := by
  have hi : i = j := inum_slotOf.symm.trans ((congrArg Disk.Slot.inum h).trans inum_slotOf)
  refine ⟨hi, ?_⟩
  unfold slotOf at h
  split at h <;> split at h <;> cases hi
  case isTrue.isTrue | isFalse.isFalse =>
    injection h with _ hk
    have := congrArg Fin.val hk
    rw [Fin.val_ofNat, Fin.val_ofNat] at this
    omega
  case isTrue.isFalse | isFalse.isTrue => cases h

end slots

namespace Store

def blockOf (s : Store sb) (i : Fin sb.ninodes) (bn : Nat) : Block :=
  if s.num (slotOf i bn) = 0 then .zero else s.disk (s.num (slotOf i bn))

def byteAt (s : Store sb) (i : Fin sb.ninodes) (k : Nat) : Byte := s.blockOf i (k / 512) (Fin.ofNat 512 k)

def contents (s : Store sb) (i : Fin sb.ninodes) : List Byte := (List.range (s.inode i).size.toNat).map (s.byteAt i)

def freeCount (s : Store sb) : Nat := ((Finset.range sb.size).filter fun b => sb.bit s.disk b = false).card

theorem freeCount_setBlock {s : Store sb} {b : Word} (hb : sb.InData b) (data : Block) :
    (s.setBlock b data).freeCount = s.freeCount := by
  unfold freeCount
  congr 1
  refine Finset.filter_congr fun c hc => ?_
  rw [setBlock_disk, Superblock.bit_update hb (Finset.mem_range.mp hc)]

def missing (s : Store sb) (needed : Finset (Slot sb.ninodes)) : Finset (Slot sb.ninodes) :=
  needed.filter fun p => s.num p = 0

end Store

structure Full (s : Store sb) (i : Fin sb.ninodes) : Prop where
  size : (s.inode i).size.toNat ≤ 71680
  block : ∀ bn, 512 * bn < (s.inode i).size.toNat → s.num (slotOf i bn) ≠ 0

section

variable {live B : Fin sb.ninodes → Prop} {i j : Fin sb.ninodes} {s t u : Store sb} {b : Word}
  {q : Slot sb.ninodes} {needed : Finset (Slot sb.ninodes)} {bn : Nat}

structure Kept (live : Fin sb.ninodes → Prop) (i : Fin sb.ninodes) (s t : Store sb) : Prop where
  other : ∀ j ≠ i, t.inode j = s.inode j
  typeMajor : (t.inode i).typeMajor = (s.inode i).typeMajor
  minorNlink : (t.inode i).minorNlink = (s.inode i).minorNlink
  size : (t.inode i).size = (s.inode i).size
  dinode : ∀ j, sb.dinode t.disk j = sb.dinode s.disk j
  num : ∀ p, live p.inum → s.num p ≠ 0 → t.num p = s.num p
  apart : ∀ p, live p.inum → p.inum ≠ i → t.num p = s.num p
  block : ∀ j ≠ i, live j → ∀ bn, t.blockOf j bn = s.blockOf j bn

namespace Kept

theorem refl : Kept live i s s :=
  ⟨fun _ _ => rfl, rfl, rfl, rfl, fun _ => rfl, fun _ _ _ => rfl, fun _ _ _ => rfl, fun _ _ _ _ => rfl⟩

theorem trans (h : Kept live i s t) (h' : Kept live i t u) : Kept live i s u where
  other := fun j hj => (h'.other j hj).trans (h.other j hj)
  typeMajor := h'.typeMajor.trans h.typeMajor
  minorNlink := h'.minorNlink.trans h.minorNlink
  size := h'.size.trans h.size
  dinode := fun j => (h'.dinode j).trans (h.dinode j)
  num := fun p hp hne => by
    have heq := h.num p hp hne
    exact (h'.num p hp (heq ▸ hne)).trans heq
  apart := fun p hp hi => (h'.apart p hp hi).trans (h.apart p hp hi)
  block := fun j hj hlive bn => (h'.block j hj hlive bn).trans (h.block j hj hlive bn)

end Kept

structure Gave (live : Fin sb.ninodes → Prop) (i : Fin sb.ninodes) (q : Slot sb.ninodes) (s t : Store sb) : Prop where
  inum : q.inum = i
  empty : s.num q = 0
  given : t.num q ≠ 0
  zero : t.disk (t.num q) = .zero
  count : t.freeCount + 1 = s.freeCount
  num : ∀ p, live p.inum → p ≠ q → t.num p = s.num p
  data : ∀ p, live p.inum → (∀ j, p ≠ .addr j 12) → s.num p ≠ 0 → t.disk (s.num p) = s.disk (s.num p)
  other : ∀ j ≠ i, t.inode j = s.inode j
  typeMajor : (t.inode i).typeMajor = (s.inode i).typeMajor
  minorNlink : (t.inode i).minorNlink = (s.inode i).minorNlink
  size : (t.inode i).size = (s.inode i).size
  dinode : ∀ j, sb.dinode t.disk j = sb.dinode s.disk j

namespace Gave

variable (h : Gave live i q s t)

include h

theorem blockOf (hj : live j) : t.blockOf j bn = s.blockOf j bn := by
  have hlive : live (slotOf j bn).inum := by rwa [inum_slotOf]
  unfold Store.blockOf
  by_cases hq : slotOf j bn = q
  · rw [hq, if_neg h.given, if_pos h.empty, h.zero]
  · rw [h.num _ hlive hq]
    split
    · rfl
    · next hne => exact h.data _ hlive (fun _ => slotOf_ne_indirect) hne

theorem kept : Kept live i s t where
  other := h.other
  typeMajor := h.typeMajor
  minorNlink := h.minorNlink
  size := h.size
  dinode := h.dinode
  num := fun p hp hne => h.num p hp fun heq => hne (heq ▸ h.empty)
  apart := fun p hp hi => h.num p hp fun heq => hi (heq ▸ h.inum)
  block := fun _ _ hj _ => h.blockOf hj

theorem missing (hneeded : ∀ p ∈ needed, live p.inum) :
    t.missing needed = (s.missing needed).erase q := by
  ext p
  rw [Finset.mem_erase, Store.missing, Store.missing, Finset.mem_filter, Finset.mem_filter]
  by_cases hp : p = q
  · rw [hp]
    exact iff_of_false (fun hmem => h.given hmem.2) fun hmem => hmem.1 rfl
  · constructor
    · rintro ⟨hmem, hzero⟩
      exact ⟨hp, hmem, (h.num p (hneeded p hmem) hp) ▸ hzero⟩
    · rintro ⟨-, hmem, hzero⟩
      exact ⟨hmem, (h.num p (hneeded p hmem) hp).trans hzero⟩

end Gave

def Paid (needed : Finset (Slot sb.ninodes)) (s t : Store sb) : Prop :=
  (t.missing needed).card + s.freeCount = (s.missing needed).card + t.freeCount

def Short (needed : Finset (Slot sb.ninodes)) (s : Store sb) (e : Panic) : Prop :=
  e = .outOfBlocks ∧ s.freeCount < (s.missing needed).card

theorem Paid.trans (h : Paid needed s t) (h' : Paid needed t u) : Paid needed s u := by
  unfold Paid at *
  omega

theorem Paid.short (h : Paid needed s t) (hshort : Short needed t e) : Short needed s e := by
  refine ⟨hshort.1, ?_⟩
  have := hshort.2
  unfold Paid at h
  omega

theorem Gave.paid (h : Gave live i q s t) (hneeded : ∀ p ∈ needed, live p.inum) (hq : q ∈ needed) :
    Paid needed s t := by
  have hcount := h.count
  have hmem : q ∈ s.missing needed := Finset.mem_filter.mpr ⟨hq, h.empty⟩
  have hcard := Finset.card_erase_add_one hmem
  rw [Paid, h.missing hneeded]
  omega

theorem short_of_full (hq : q ∈ needed) (hzero : s.num q = 0) (hfull : s.freeCount = 0) :
    Short needed s .outOfBlocks := by
  refine ⟨rfl, ?_⟩
  rw [hfull]
  exact Finset.card_pos.mpr ⟨q, Finset.mem_filter.mpr ⟨hq, hzero⟩⟩

theorem balloc_full (hfull : s.freeCount = 0) : balloc s = .error .outOfBlocks := by
  have hnone : (List.range sb.size).find? (fun b => !sb.bit s.disk b) = none := by
    rw [List.find?_eq_none]
    intro b hb
    have := Finset.filter_eq_empty_iff.mp (Finset.card_eq_zero.mp hfull) (Finset.mem_range.mpr (List.mem_range.mp hb))
    simpa using this
  have hget : (MonadState.get : M sb (Store sb)) s = .ok (s, s) := rfl
  refine (bind_ok hget).trans ?_
  rw [hnone]
  rfl

theorem balloc_run (h : s.OwnsOn (slots live)) (hfree : 0 < s.freeCount) :
    ∃ b t, balloc s = .ok (b, t) ∧ Took s (slots live) b t ∧ t.freeCount + 1 = s.freeCount ∧
      ∀ c, sb.InData c → ¬s.Free c → t.disk c = s.disk c := by
  obtain ⟨a, ha⟩ := Finset.card_pos.mp hfree
  obtain ⟨halt, habit⟩ := Finset.mem_filter.mp ha
  cases hfind : (List.range sb.size).find? fun b => !sb.bit s.disk b with
  | none =>
    have := List.find?_eq_none.mp hfind a (List.mem_range.mpr (Finset.mem_range.mp halt))
    simp [habit] at this
  | some b =>
    have hbit : sb.bit s.disk b = false := by simpa using List.find?_some hfind
    have hlt : b < sb.size := List.mem_range.mp (List.mem_of_find?_eq_some hfind)
    have hsize := sb.size_lt
    have hnat : (BitVec.ofNat 32 b).toNat = b := Nat.mod_eq_of_lt (by omega)
    obtain ⟨t, ht⟩ : ∃ t : Store sb, t =
      { s with disk := update (sb.setBit s.disk b true) (BitVec.ofNat 32 b) .zero } := ⟨_, rfl⟩
    have hrun : balloc s = .ok (BitVec.ofNat 32 b, t) := by
      have hget : (MonadState.get : M sb (Store sb)) s = .ok (s, s) := rfl
      refine (bind_ok hget).trans ?_
      rw [hfind, ht]
      rfl
    have htook : Took s (slots live) (BitVec.ofNat 32 b) t := (balloc_ends h closed_slots).of_ok hrun
    refine ⟨_, t, hrun, htook, ?_, fun c hc hused => ?_⟩
    · have herase : ((Finset.range sb.size).filter fun c => sb.bit t.disk c = false) =
          ((Finset.range sb.size).filter fun c => sb.bit s.disk c = false).erase b := by
        ext c
        rw [Finset.mem_erase, Finset.mem_filter, Finset.mem_filter, Finset.mem_range, ht]
        by_cases hc : c < sb.size
        · rw [Superblock.bit_update htook.inData hc]
          by_cases hcb : c = b
          · rw [hcb, Superblock.bit_setBit_self]
            simp
          · rw [Superblock.bit_setBit_of_ne hlt hc hcb]
            simp [hcb]
        · simp [hc]
      have hmem : b ∈ (Finset.range sb.size).filter fun c => sb.bit s.disk c = false :=
        Finset.mem_filter.mpr ⟨Finset.mem_range.mpr hlt, hbit⟩
      rw [Store.freeCount, herase, Finset.card_erase_of_mem hmem]
      exact Nat.sub_add_cancel (Finset.card_pos.mpr ⟨b, hmem⟩)
    · have hne : c ≠ BitVec.ofNat 32 b := by
        rintro rfl
        exact hused ⟨by rw [hnat]; exact hlt, by rw [hnat]; exact hbit⟩
      rw [ht]
      exact (update_of_ne hne ..).trans (Superblock.setBit_of_inData hc hlt true)

theorem loadAddr_runs (h : Work live B (slots live) i s) (hk : .addr i k ∈ needed) :
    Finishes (Short needed s) (loadAddr i k) s fun b t =>
      (t = s ∨ Gave live i (.addr i k) s t) ∧ t.num (.addr i k) = b ∧ b ≠ 0 := by
  refine .get ?_
  split
  · next hzero =>
    rcases Nat.eq_zero_or_pos s.freeCount with hfree | hfree
    · exact .fail (balloc_full hfree) (short_of_full hk hzero hfree)
    obtain ⟨b, t, hrun, ht, hcount, hkeep⟩ := balloc_run h.owns hfree
    refine .run hrun (.get (.set (.pure ⟨.inr ?_, Store.num_setAddr_self k b, ht.inData.ne_zero⟩)))
    have hself : ((t.setAddr i k b).inode i) = { s.inode i with addrs := update (s.inode i).addrs k b } := by
      rw [Store.inode_setAddr_self, ht.inode]
    exact {
      inum := rfl
      empty := hzero
      given := by
        rw [Store.num_setAddr_self]
        exact ht.inData.ne_zero
      zero := by
        rw [Store.num_setAddr_self]
        exact ht.zero
      count := hcount
      num := fun p hp hne => by
        by_cases hentry : ∃ j, p = .entry i j ∧ k = 12
        · obtain ⟨j, rfl, rfl⟩ := hentry
          rw [Store.num_setAddr_entry, if_neg ht.inData.ne_zero, ht.zero, Block.word_zero, Store.num, if_pos hzero]
        · refine (Store.num_setAddr k b hne fun j hj h12 => hentry ⟨j, hj, h12⟩).trans (ht.num p hp)
      data := fun p hp _ hne => hkeep _ (h.owns.inArea p hp hne) (h.owns.used p hp hne)
      other := fun j hj => by rw [Store.inode_setAddr_of_ne hj, ht.inode]
      typeMajor := by rw [hself]
      minorNlink := by rw [hself]
      size := by rw [hself]
      dinode := ht.dinode }
  · next hne => exact .pure ⟨.inl rfl, rfl, hne⟩

theorem loadEntry_runs (h : Work live B (slots live) i s) {j : Fin 128} (hj : .entry i j ∈ needed)
    (hb : s.num (.addr i 12) = b) (hne : b ≠ 0) :
    Finishes (Short needed s) (loadEntry b j) s fun c t =>
      (t = s ∨ Gave live i (.entry i j) s t) ∧ t.num (.entry i j) = c ∧ c ≠ 0 := by
  have hentry : ∀ t : Store sb, (t.inode i).addrs 12 = b → ∀ l, t.num (.entry i l) = (t.disk b).word l := by
    intro t ht l
    rw [Store.num, ht, if_neg hne]
  have hword := hentry s hb j
  refine .get ?_
  split
  · next hzero =>
    rw [← hword] at hzero
    rcases Nat.eq_zero_or_pos s.freeCount with hfree | hfree
    · exact .fail (balloc_full hfree) (short_of_full hj hzero hfree)
    obtain ⟨c, t, hrun, ht, hcount, hkeep⟩ := balloc_run h.owns hfree
    have htb : (t.inode i).addrs 12 = b := by
      rw [ht.inode]
      exact hb
    have htnum : t.num (.addr i 12) = b := htb
    have hin : sb.InData b := hb ▸ h.owns.inArea (.addr i 12) h.live_self (hb.symm ▸ hne)
    have hcb : c ≠ b := fun heq => ht.new (.addr i 12) h.live_self (htnum ▸ hne) (htnum.trans heq.symm)
    have hinode : ∀ l, (t.setBlock b ((t.disk b).setWord j c)).inode l = s.inode l := fun l => by
      rw [Store.inode_setBlock hin, ht.inode]
    have hnum : ∀ l, (t.setBlock b ((t.disk b).setWord j c)).num (.entry i l) =
        if l = j then c else (t.disk b).word l := by
      intro l
      rw [hentry _ (by rw [hinode]; exact hb) l, Store.setBlock_disk, update_self, Block.word_setWord]
    have hself := hnum j
    rw [if_pos rfl] at hself
    refine .run hrun (.get (.set (.pure ⟨.inr ?_, hself, ht.inData.ne_zero⟩)))
    exact {
      inum := rfl
      empty := hzero
      given := by
        rw [hself]
        exact ht.inData.ne_zero
      zero := by
        rw [hself, Store.setBlock_disk, update_of_ne hcb, ht.zero]
      count := by rw [Store.freeCount_setBlock hin, hcount]
      num := fun p hp hpne => by
        by_cases hpi : ∃ l, p = .entry i l
        · obtain ⟨l, rfl⟩ := hpi
          have hl : l ≠ j := fun heq => hpne (by rw [heq])
          rw [hnum, if_neg hl, ← hentry t htb, ht.num _ hp]
        · refine ((ht.work h).num_setBlock h.live_self (p := .addr i 12) htb hne _ hp fun l hl heq => hpi ?_).trans (ht.num p hp)
          cases heq
          exact ⟨l, hl⟩
      data := fun p hp hdata hpne => by
        have hpb : s.num p ≠ b := fun heq => hdata i (h.owns.once p (.addr i 12) hp h.live_self hpne (heq.trans hb.symm))
        rw [Store.setBlock_disk, update_of_ne hpb]
        exact hkeep _ (h.owns.inArea p hp hpne) (h.owns.used p hp hpne)
      other := fun l _ => hinode l
      typeMajor := by rw [hinode]
      minorNlink := by rw [hinode]
      size := by rw [hinode]
      dinode := fun l => by rw [Store.setBlock_disk, Superblock.dinode_update hin, ht.dinode] }
  · next hne' => exact .pure ⟨.inl rfl, hword, hne'⟩

structure Grew (live B : Fin sb.ninodes → Prop) (needed : Finset (Slot sb.ninodes)) (i : Fin sb.ninodes)
    (s t : Store sb) : Prop where
  work : Work live B (slots live) i t
  paid : Paid needed s t
  kept : Kept live i s t
  block : ∀ bn, t.blockOf i bn = s.blockOf i bn

theorem Grew.of_gave (hwork : Work live B (slots live) i t) (hneeded : ∀ p ∈ needed, live p.inum) (hq : q ∈ needed)
    (h : t = s ∨ Gave live i q s t) : Grew live B needed i s t := by
  rcases h with rfl | h
  · exact ⟨hwork, rfl, .refl, fun _ => rfl⟩
  · exact ⟨hwork, h.paid hneeded hq, h.kept, fun _ => h.blockOf hwork.live_self⟩

theorem Grew.trans (h : Grew live B needed i s t) (h' : Grew live B needed i t u) : Grew live B needed i s u :=
  ⟨h'.work, h.paid.trans h'.paid, h.kept.trans h'.kept, fun bn => (h'.block bn).trans (h.block bn)⟩

theorem loadAddr_grows (h : Work live B (slots live) i s) (hneeded : ∀ p ∈ needed, live p.inum)
    (hk : .addr i k ∈ needed) :
    Finishes (Short needed s) (loadAddr i k) s fun b t =>
      Grew live B needed i s t ∧ t.num (.addr i k) = b ∧ b ≠ 0 := by
  refine ((loadAddr_runs h hk).and (loadAddr_ends h k)).mono ?_
  rintro b t ⟨⟨hgave, hb⟩, hwork, -⟩
  exact ⟨.of_gave hwork hneeded hk hgave, hb⟩

theorem loadEntry_grows (h : Work live B (slots live) i s) {j : Fin 128} (hneeded : ∀ p ∈ needed, live p.inum)
    (hj : .entry i j ∈ needed) (hb : s.num (.addr i 12) = b) (hne : b ≠ 0) :
    Finishes (Short needed s) (loadEntry b j) s fun c t =>
      Grew live B needed i s t ∧ t.num (.entry i j) = c ∧ c ≠ 0 := by
  refine ((loadEntry_runs h hj hb hne).and (loadEntry_ends h hb hne j)).mono ?_
  rintro c t ⟨⟨hgave, hc⟩, hwork, -⟩
  exact ⟨.of_gave hwork hneeded hj hgave, hc⟩

theorem slotOf_of_lt (h : bn < 12) : slotOf i bn = .addr i ⟨bn, Nat.lt_succ_of_lt h⟩ := by
  rw [slotOf, if_pos h]
  exact congrArg (Slot.addr i) (Fin.ext (Nat.mod_eq_of_lt (by omega)))

theorem slotOf_of_ge (h : ¬bn < 12) (hlt : bn - 12 < 128) :
    slotOf i bn = .entry i ⟨bn - 12, hlt⟩ := by
  rw [slotOf, if_neg h]
  exact congrArg (Slot.entry i) (Fin.ext (Nat.mod_eq_of_lt hlt))

theorem bmap_grows (h : Work live B (slots live) i s) (hneeded : ∀ p ∈ needed, live p.inum) (hbn : bn < 140)
    (hslot : slotOf i bn ∈ needed) (h12 : 12 ≤ bn → .addr i 12 ∈ needed) :
    Finishes (Short needed s) (bmap i bn) s fun b t =>
      Grew live B needed i s t ∧ t.num (slotOf i bn) = b ∧ b ≠ 0 := by
  unfold bmap
  split
  · next hlt =>
    rw [slotOf_of_lt hlt] at hslot ⊢
    exact loadAddr_grows h hneeded hslot
  · next hge =>
    have hlt : bn - 12 < 128 := by omega
    rw [slotOf_of_ge hge hlt] at hslot ⊢
    rw [dif_pos hlt]
    refine (loadAddr_grows h hneeded (h12 (Nat.le_of_not_lt hge))).bind ?_
    rintro b t ⟨hg, hb, hne⟩
    refine ((loadEntry_grows hg.work hneeded hslot hb hne).weaken fun _ => hg.paid.short).mono ?_
    rintro c u ⟨hg', hc⟩
    exact ⟨hg.trans hg', hc⟩

theorem loadAddr_there (hne : s.num (.addr i k) ≠ 0) : loadAddr i k s = .ok (s.num (.addr i k), s) := by
  have hget : (MonadState.get : M sb (Store sb)) s = .ok (s, s) := rfl
  have haddr : (s.inode i).addrs k ≠ 0 := hne
  refine (bind_ok hget).trans ?_
  rw [if_neg haddr]
  rfl

theorem bmap_there (hbn : bn < 140) (hne : s.num (slotOf i bn) ≠ 0) :
    bmap i bn s = .ok (s.num (slotOf i bn), s) := by
  unfold bmap
  split
  · next hlt =>
    rw [slotOf_of_lt hlt] at hne ⊢
    exact loadAddr_there hne
  · next hge =>
    have hlt : bn - 12 < 128 := by omega
    rw [slotOf_of_ge hge hlt] at hne ⊢
    have h12 : s.num (.addr i 12) ≠ 0 := fun hzero => hne (if_pos hzero)
    have hword : (s.disk (s.num (.addr i 12))).word ⟨bn - 12, hlt⟩ = s.num (.entry i ⟨bn - 12, hlt⟩) := (if_neg h12).symm
    rw [dif_pos hlt]
    refine (bind_ok (loadAddr_there h12)).trans ?_
    have hget : (MonadState.get : M sb (Store sb)) s = .ok (s, s) := rfl
    refine (bind_ok hget).trans ?_
    rw [hword, if_neg hne]
    rfl

section write

variable (h : Work live B (slots live) i s) (hb : s.num (slotOf i bn) = b) (hne : b ≠ 0) (data : Block)

include h hb hne

theorem Work.num_write (hp : live p.inum) : (s.setBlock b data).num p = s.num p := by
  have hlive : live (slotOf i bn).inum := by
    rw [inum_slotOf]
    exact h.live_self
  exact h.num_setBlock hlive hb hne data hp fun _ _ => slotOf_ne_indirect

theorem Work.inData : sb.InData b := by
  have hlive : live (slotOf i bn).inum := by
    rw [inum_slotOf]
    exact h.live_self
  exact hb ▸ h.owns.inArea _ hlive (hb.symm ▸ hne)

theorem Work.write_slot : Work live B (slots live) i (s.setBlock b data) := by
  refine h.write (p := slotOf i bn) ?_ (fun _ => slotOf_ne_indirect) hb hne data
  rw [slots, inum_slotOf]
  exact h.live_self

theorem Work.blockOf_write_self : (s.setBlock b data).blockOf i bn = data := by
  have hnum : (s.setBlock b data).num (slotOf i bn) = b := by
    rw [h.num_write hb hne data (by rw [inum_slotOf]; exact h.live_self), hb]
  rw [Store.blockOf, hnum, if_neg hne]
  exact update_self ..

theorem Work.blockOf_write (hj : live j) (hslot : slotOf j m ≠ slotOf i bn) :
    (s.setBlock b data).blockOf j m = s.blockOf j m := by
  have hlive : live (slotOf j m).inum := by rwa [inum_slotOf]
  rw [Store.blockOf, h.num_write hb hne data hlive, Store.blockOf]
  split
  · rfl
  · next hm =>
    have hself : live (slotOf i bn).inum := by
      rw [inum_slotOf]
      exact h.live_self
    exact update_of_ne (fun heq => hslot (h.owns.once _ _ hlive hself hm (heq.trans hb.symm))) ..

theorem Work.kept_write : Kept live i s (s.setBlock b data) where
  other := fun j _ => Store.inode_setBlock (h.inData hb hne) data j
  typeMajor := by rw [Store.inode_setBlock (h.inData hb hne)]
  minorNlink := by rw [Store.inode_setBlock (h.inData hb hne)]
  size := by rw [Store.inode_setBlock (h.inData hb hne)]
  dinode := fun j => Superblock.dinode_update (h.inData hb hne) j data
  num := fun _ hp _ => h.num_write hb hne data hp
  apart := fun _ hp _ => h.num_write hb hne data hp
  block := fun j hj hlive m => h.blockOf_write hb hne data hlive fun heq =>
    hj (inum_slotOf.symm.trans ((congrArg Disk.Slot.inum heq).trans inum_slotOf))

theorem Work.paid_write (hneeded : ∀ p ∈ needed, live p.inum) : Paid needed s (s.setBlock b data) := by
  have hmissing : (s.setBlock b data).missing needed = s.missing needed := by
    refine Finset.filter_congr fun p hp => ?_
    rw [h.num_write hb hne data (hneeded p hp)]
  rw [Paid, hmissing, Store.freeCount_setBlock (h.inData hb hne)]

end write

structure Written (live B : Fin sb.ninodes → Prop) (needed : Finset (Slot sb.ninodes)) (i : Fin sb.ninodes)
    (src : Nat → Byte) (off n : Nat) (s t : Store sb) : Prop where
  work : Work live B (slots live) i t
  paid : Paid needed s t
  kept : Kept live i s t
  byte : ∀ k < 71680, t.byteAt i k = if off ≤ k ∧ k < off + n then src (k - off) else s.byteAt i k
  there : ∀ k, off ≤ k → k < off + n → t.num (slotOf i (k / 512)) ≠ 0
  same : (∀ k, off ≤ k → k < off + n → s.num (slotOf i (k / 512)) ≠ 0) → t.inode i = s.inode i

theorem byteAt_write (h : Work live B (slots live) i s) (hoff : off < 71680)
    (hb : s.num (slotOf i (off / 512)) = b) (hne : b ≠ 0) (hm : m ≤ 512 - off % 512) (hk : k < 71680) :
    (s.setBlock b (splice (s.disk b) (off % 512) m src)).byteAt i k =
      if off ≤ k ∧ k < off + m then src (k - off) else s.byteAt i k := by
  have hmod : (Fin.ofNat 512 k).val = k % 512 := Fin.val_ofNat ..
  unfold Store.byteAt
  by_cases hblock : k / 512 = off / 512
  · rw [hblock, h.blockOf_write_self hb hne, Store.blockOf, hb, if_neg hne, splice, hmod]
    have hiff : off % 512 ≤ k % 512 ∧ k % 512 < off % 512 + m ↔ off ≤ k ∧ k < off + m := by omega
    have hsub : k % 512 - off % 512 = k - off := by omega
    rw [hsub]
    exact if_congr hiff rfl rfl
  · have hslot : slotOf i (k / 512) ≠ slotOf i (off / 512) :=
      fun heq => hblock (slotOf_inj (by omega) (by omega) heq).2
    rw [h.blockOf_write hb hne _ h.live_self hslot, if_neg (by omega)]

theorem writeLoop_writes (src : Nat → Byte) (h : Work live B (slots live) i s)
    (hneeded : ∀ p ∈ needed, live p.inum) (hfuel : n ≤ fuel) (hmax : off + n ≤ 71680)
    (hslot : ∀ k, off ≤ k → k < off + n → slotOf i (k / 512) ∈ needed)
    (h12 : ∀ k, off ≤ k → k < off + n → 12 ≤ k / 512 → .addr i 12 ∈ needed) :
    Finishes (Short needed s) (writeLoop i fuel src off n) s fun _ t => Written live B needed i src off n s t := by
  have hnone : ∀ {s : Store sb} {src : Nat → Byte} {off : Nat}, Work live B (slots live) i s →
      Written live B needed i src off 0 s s := fun h =>
    ⟨h, rfl, .refl, fun k _ => by rw [if_neg (by omega)], fun k _ _ => by omega, fun _ => rfl⟩
  induction fuel generalizing s src off n with
  | zero =>
    obtain rfl : n = 0 := by omega
    exact .pure (hnone h)
  | succ fuel ih =>
    unfold writeLoop
    split
    · next hn =>
      rw [hn]
      exact .pure (hnone h)
    · next hn =>
      have hbn : off / 512 < 140 := by omega
      refine (bmap_grows h hneeded hbn (hslot off le_rfl (by omega)) (h12 off le_rfl (by omega))).bind_run ?_
      rintro b t hrun ⟨hg, hb, hne⟩
      generalize hm : min n (512 - off % 512) = m
      have hmn : m ≤ n := by omega
      have hm0 : 0 < m := by omega
      have hm512 : m ≤ 512 - off % 512 := by omega
      refine .get (.set ?_)
      generalize hu : t.setBlock b (splice (t.disk b) (off % 512) m src) = u
      have hwork : Work live B (slots live) i u := hu ▸ hg.work.write_slot hb hne _
      have hkept : Kept live i t u := hu ▸ hg.work.kept_write hb hne _
      have hbyte : ∀ k < 71680, u.byteAt i k = if off ≤ k ∧ k < off + m then src (k - off) else s.byteAt i k := by
        intro k hk
        rw [← hu, byteAt_write hg.work (by omega) hb hne hm512 hk, Store.byteAt, hg.block]
        rfl
      have hinode : u.inode i = t.inode i := by
        rw [← hu, Store.inode_setBlock (hg.work.inData hb hne)]
      have hpaid : Paid needed s u := hg.paid.trans (hu ▸ hg.work.paid_write hb hne _ hneeded)
      refine ((ih _ hwork (by omega) (by omega) (fun k hk hk' => hslot k (by omega) (by omega))
        fun k hk hk' => h12 k (by omega) (by omega)).weaken fun _ => hpaid.short).mono ?_
      intro _ v hv
      have hthere : ∀ k, k / 512 = off / 512 → v.num (slotOf i (k / 512)) ≠ 0 := by
        intro k hk
        have hlive : live (slotOf i (k / 512)).inum := by
          rw [inum_slotOf]
          exact h.live_self
        have hnum : u.num (slotOf i (k / 512)) = b := by
          rw [← hu, hg.work.num_write hb hne _ hlive, hk, hb]
        rw [hv.kept.num _ hlive (hnum ▸ hne), hnum]
        exact hne
      refine ⟨hv.work, hpaid.trans hv.paid, (hg.kept.trans hkept).trans hv.kept, fun k hk => ?_, fun k hk hk' => ?_, fun hs => ?_⟩
      · rw [hv.byte k hk, hbyte k hk]
        by_cases hlo : off + m ≤ k ∧ k < off + m + (n - m)
        · rw [if_pos hlo, if_pos (by omega)]
          congr 1
          omega
        · rw [if_neg hlo]
          exact if_congr (by omega) rfl rfl
      · by_cases hlo : k < off + m
        · exact hthere k (by omega)
        · exact hv.there k (by omega) (by omega)
      · have hst : t = s := by
          rw [bmap_there hbn (hs off le_rfl (by omega))] at hrun
          cases hrun
          rfl
        rw [hv.same fun k hk hk' => ?_, hinode, hst]
        have hlive : live (slotOf i (k / 512)).inum := by
          rw [inum_slotOf]
          exact h.live_self
        have := hs k (by omega) (by omega)
        rw [← hu, hg.work.num_write hb hne _ hlive, hst]
        exact this

end

end Xv6.Disk
