import Xv6.Vm.Exec

namespace Xv6.Vm

open Lib Prog Pgdir

def Never (_ : Stop) : Prop := False

structure Room (k : Nat) (s : Kmem) : Prop where
  enough : k ≤ s.freelist.length
  whole : s.cut = false

def missing (d : Pgdir) (S : Finset (Fin 1024)) : Nat := (S.filter fun i => (d.pde i).isNone).card

variable {L : Layout} {d : Pgdir} {S : Finset (Fin 1024)} {s : Kmem}

theorem kalloc_room (h : Room (k + 1) s) :
    Finishes Never kalloc s fun r t => ∃ v, r = some v ∧ Room k t := by
  obtain ⟨l, c⟩ := s
  cases l with
  | nil => exact absurd h.enough (by simp)
  | cons v l => exact ⟨v, rfl, by simpa using h.enough, h.whole⟩

theorem missing_setTable (hS : pdx a ∈ S) (h : ¬ d.HasTable a) :
    missing (d.setTable (pdx a) t) S + 1 = missing d S := by
  have hmem : pdx a ∈ S.filter fun i => (d.pde i).isNone := by
    have hnone : d.pde (pdx a) = none := by simpa [HasTable] using h
    simp [hS, hnone]
  have herase : (S.filter fun i => ((d.setTable (pdx a) t).pde i).isNone) =
      (S.filter fun i => (d.pde i).isNone).erase (pdx a) := by
    ext i
    by_cases hi : i = pdx a
    · subst hi
      simp [setTable]
    · simp [setTable, hi]
  rw [missing, herase, Finset.card_erase_add_one hmem, missing]

theorem missing_setEntry : missing (d.setEntry a x) S = missing d S := by
  have hpde : ∀ i, ((d.setEntry a x).pde i).isNone = (d.pde i).isNone := by
    intro i
    unfold setEntry
    split
    case h_1 => rfl
    case h_2 t ht =>
      by_cases hi : i = pdx a
      · subst hi
        simp [setTable, ht]
      · simp [setTable, hi]
  simp only [missing, hpde]

theorem walkpgdir_room (hS : pdx a ∈ S) (h : Room (missing d S + k) s) :
    Finishes Never (walkpgdir d a) s fun r t => ∃ d', r = some d' ∧ Room (missing d' S + k) t := by
  unfold walkpgdir
  split
  case h_1 => exact .pure ⟨d, rfl, h⟩
  case h_2 hnone =>
    have htable : ¬ d.HasTable a := by simp [HasTable, hnone]
    have hmiss := fun v : Page => missing_setTable (t := ⟨v, fun _ => none⟩) hS htable
    have hroom : Room (missing d S - 1 + k + 1) s := ⟨by have := h.enough; have := hmiss 0; omega, h.whole⟩
    refine (kalloc_room hroom).bind fun r t ht => ?_
    obtain ⟨v, rfl, hroom'⟩ := ht
    refine .pure ⟨_, rfl, ?_, hroom'.whole⟩
    have := hmiss v
    have := hroom'.enough
    omega

theorem mappage_room (ha : a < maxPage) (hS : pdx a ∈ S) (hnone : d.lookup a = none) (h : Room (missing d S + k) s) :
    Finishes Never (mappage d a e) s fun r t =>
      (r.2 = true ∧ Room (missing r.1 S + k) t) ∧ Mapped d a e r := by
  refine (mappage_returns ha).finishes ?_
  refine (walkpgdir_returns.finishes (walkpgdir_room hS h)).bind fun r t ht => ?_
  obtain ⟨⟨d', rfl, hroom⟩, hwalk⟩ := ht
  have hwalk := hwalk d' rfl
  have hfree : ¬ (d'.entry a).join.isSome = true := by
    have hlookup := hwalk.lookup a
    rw [hnone] at hlookup
    rw [← Pgdir.lookup, hlookup]
    decide
  dsimp only
  rw [if_neg hfree]
  exact .pure ⟨rfl, by rwa [missing_setEntry]⟩

theorem mappages_room (hmax : a + n < maxPage) (hS : ∀ b, a ≤ b → b ≤ a + n → pdx b ∈ S)
    (hnone : ∀ b, a ≤ b → b ≤ a + n → d.lookup b = none) (h : Room (missing d S + k) s) :
    Finishes Never (mappages n d a e) s fun r t =>
      (r.2 = true ∧ Room (missing r.1 S + k) t) ∧ MappedRange d a n e r := by
  refine (mappages_returns hmax).finishes ?_
  induction n generalizing d a e s with
  | zero => exact (mappage_room (by omega) (hS a le_rfl (by omega)) (hnone a le_rfl (by omega)) h).mono fun _ _ h => h.1
  | succ n ih =>
    refine (mappage_room (by omega) (hS a le_rfl (by omega)) (hnone a le_rfl (by omega)) h).bind fun r t ht => ?_
    obtain ⟨⟨hok, hroom⟩, hmap⟩ := ht
    obtain ⟨d', ok⟩ := r
    dsimp only at hok ⊢
    rw [if_pos hok]
    refine ih (by omega) (fun b hb hb' => hS b (by omega) (by omega)) (fun b hb hb' => ?_) hroom
    rw [hmap.lookup b (by omega) (by omega)]
    exact hnone b (by omega) (by omega)

def kernelTables : Finset (Fin 1024) := Finset.univ.filter fun i => 512 ≤ i.val ∧ i.val < 568 ∨ 1016 ≤ i.val

theorem card_kernelTables : kernelTables.card = 64 := by decide +kernel

theorem mem_kernelTables {k : Kmap} (hk : k ∈ kmap L) {b : Nat} (hb : k.Covers b) : pdx b ∈ kernelTables := by
  simpa [kernelTables] using pdx_of_kmap hk hb

theorem kmap_disjoint (L : Layout) : (kmap L).Pairwise fun k k' => ∀ b, k.Covers b → ¬ k'.Covers b := by
  have hdata := L.lt_data
  have hdata' := L.data_le
  have hend := L.end_le
  simp only [kmap, kernbase, phystop, Kmap.Covers, List.pairwise_cons, List.mem_cons, List.not_mem_nil, or_false,
    forall_eq_or_imp, forall_eq, List.Pairwise.nil, and_true, false_imp_iff, implies_true]
  refine ⟨⟨?_, ?_, ?_⟩, ⟨?_, ?_⟩, ?_⟩ <;> intro b hb hb' <;> omega

theorem mapKernel_room (hks : ks ⊆ kmap L) (hdisjoint : ks.Pairwise fun k k' => ∀ b, k.Covers b → ¬ k'.Covers b)
    (hnone : ∀ m ∈ ks, ∀ b, m.Covers b → d.lookup b = none) (h : Room (missing d kernelTables + k) s) :
    Finishes Never (mapKernel L ks d) s fun r t => ∃ d', r = some d' ∧ Room (missing d' kernelTables + k) t := by
  induction ks generalizing d s with
  | nil => exact .pure ⟨d, rfl, h⟩
  | cons m ks ih =>
    obtain ⟨hm, hks⟩ := List.cons_subset.mp hks
    obtain ⟨hapart, hdisjoint⟩ := List.pairwise_cons.mp hdisjoint
    obtain ⟨hnone₀, hnone⟩ := List.forall_mem_cons.mp hnone
    refine (mappages_room (kmap_bound hm) (fun b hb hb' => mem_kernelTables hm ⟨hb, hb'⟩)
      (fun b hb hb' => hnone₀ b ⟨hb, hb'⟩) h).bind fun r t ht => ?_
    obtain ⟨⟨hok, hroom⟩, hmap⟩ := ht
    obtain ⟨d', ok⟩ := r
    dsimp only at hok hroom hmap ⊢
    rw [if_pos hok]
    refine ih hks hdisjoint (fun m' hm' b hb => ?_) hroom
    have hbound : b < maxPage := lt_of_le_of_lt hb.2 (kmap_bound (hks hm'))
    rw [hmap.lookup b hbound ?_]
    · exact hnone m' hm' b hb
    · have hout : ¬ m.Covers b := fun hcov => hapart m' hm' b hcov hb
      unfold Kmap.Covers at hout
      omega

theorem missing_le : missing d S ≤ S.card := Finset.card_filter_le _ _

theorem setupkvm_room (h : Room (65 + k) s) :
    Finishes Never (setupkvm L) s fun r t => ∃ d, r = some d ∧ Fresh d ∧ Room k t := by
  have hroom : Room (64 + k + 1) s := ⟨by have := h.enough; omega, h.whole⟩
  have hmain : Finishes Never (setupkvm L) s fun r t => ∃ d, r = some d ∧ Room k t := by
    refine (kalloc_room hroom).bind fun r t ht => ?_
    obtain ⟨v, rfl, hroom'⟩ := ht
    have hmissing : missing ⟨v, fun _ => none⟩ kernelTables ≤ 64 := missing_le.trans card_kernelTables.le
    have hroom'' : Room (missing ⟨v, fun _ => none⟩ kernelTables + k) t := by
      refine ⟨?_, hroom'.whole⟩
      have := hroom'.enough
      omega
    refine (mapKernel_room (List.Subset.refl _) (kmap_disjoint L) (fun m _ b _ => rfl) hroom'').mono
      fun r t ⟨d, hd, hroom⟩ => ⟨d, hd, ?_, hroom.whole⟩
    have := hroom.enough
    omega
  refine (setupkvm_returns.finishes hmain).mono fun r t h => ?_
  obtain ⟨⟨d, rfl, hroom⟩, hfresh⟩ := h
  exact ⟨d, rfl, hfresh d rfl, hroom⟩

structure Kept (d : Pgdir) (as : List Nat) (d' : Pgdir) : Prop where
  lookup : ∀ b < maxPage, b ∉ as → d'.lookup b = d.lookup b
  other : ∀ i, (∀ a ∈ as, pdx a ≠ i) → d'.pde i = d.pde i

theorem allocLoop_room (has : ∀ a ∈ as, a < kernbase) (hS : ∀ a ∈ as, pdx a ∈ S) (hnodup : as.Nodup)
    (hnone : ∀ a ∈ as, d.lookup a = none) (h : Room (missing d S + (as.length + k)) s) :
    Finishes Never (allocLoop L oldsz newsz as d) s fun r t =>
      r.2 = newsz ∧ Room (missing r.1 S + k) t ∧ Kept d as r.1 := by
  induction as generalizing d s with
  | nil => exact .pure ⟨rfl, by simpa using h, fun _ _ _ => rfl, fun _ _ => rfl⟩
  | cons a as ih =>
    obtain ⟨ha, has⟩ := List.forall_mem_cons.mp has
    obtain ⟨hSa, hS⟩ := List.forall_mem_cons.mp hS
    obtain ⟨hmem, hnodup⟩ := List.nodup_cons.mp hnodup
    obtain ⟨hnone₀, hnone⟩ := List.forall_mem_cons.mp hnone
    have hamax : a < maxPage := ha.trans (by decide)
    have hroom : Room (missing d S + (as.length + k) + 1) s := by
      refine ⟨?_, h.whole⟩
      have := h.enough
      rw [List.length_cons] at this
      omega
    refine (kalloc_room hroom).bind fun r t ht => ?_
    obtain ⟨v, rfl, hroom'⟩ := ht
    refine (mappage_room hamax hSa hnone₀ hroom').bind fun r t ht => ?_
    obtain ⟨⟨hok, hroom''⟩, hmap⟩ := ht
    obtain ⟨d', ok⟩ := r
    dsimp only at hok hroom'' hmap ⊢
    rw [if_pos hok]
    refine (ih has hS hnodup (fun b hb => ?_) hroom'').mono fun r t ⟨hsize, hroom, hkept⟩ =>
      ⟨hsize, hroom, fun b hb hbas => ?_, fun i hi => ?_⟩
    · have hne : b ≠ a := by
        rintro rfl
        exact hmem hb
      rw [hmap.lookup b ((has b hb).trans (by decide)) hne, hnone b hb]
    · obtain ⟨hne, hbas⟩ := List.ne_and_not_mem_of_not_mem_cons hbas
      rw [hkept.lookup b hb hbas, hmap.lookup b hb hne]
    · obtain ⟨hai, hi⟩ := List.forall_mem_cons.mp hi
      rw [hkept.other i hi, hmap.other i hai.symm]

theorem allocuvm_room (hnew : newsz < 0x80000000) (hle : oldsz ≤ newsz)
    (hS : ∀ a ∈ pagesBelow ((pgroundup oldsz).toNat / 4096) newsz, pdx a ∈ S)
    (hnone : ∀ a, (pgroundup oldsz).toNat / 4096 ≤ a → a < kernbase → d.lookup a = none)
    (h : Room (missing d S + ((newsz.toNat + 4095) / 4096 + k)) s) :
    Finishes Never (allocuvm L d oldsz newsz) s fun r t =>
      r.2 = newsz ∧ Room (missing r.1 S + k) t ∧ Kept d (pagesBelow ((pgroundup oldsz).toNat / 4096) newsz) r.1 := by
  unfold allocuvm
  rw [if_neg (by rwa [BitVec.not_le]), if_neg (by rwa [BitVec.not_lt])]
  have hkern : ∀ a ∈ pagesBelow ((pgroundup oldsz).toNat / 4096) newsz, a < kernbase := fun a => lt_kernbase_of_mem hnew
  refine allocLoop_room hkern hS (List.nodup_range' ..) (fun a ha => ?_) ⟨?_, h.whole⟩
  · exact hnone a (List.mem_range'_1.mp ha).1 (hkern a ha)
  · have := h.enough
    rw [pagesBelow, List.length_range']
    omega

def Valid (L : Layout) (v : Nat) : Prop := L.endPg ≤ v ∧ v < phystop

theorem kfree_valid (h : Valid L v) :
    Finishes Never (kfree L v) s fun _ t => t = { s with freelist := v :: s.freelist } := by
  have hvalid : ¬(v < L.endPg ∨ phystop ≤ v) :=
    fun hor => hor.elim (fun hlt => absurd h.1 (not_le.mpr hlt)) fun hle => absurd h.2 (not_lt.mpr hle)
  unfold kfree
  rw [if_neg hvalid]
  rfl

theorem deallocLoop_valid (hhi : hi ≤ kernbase) (h : ∀ v ∈ d.pages, Valid L v) :
    Finishes Never (deallocLoop L hi fuel a d) s fun d' _ => ∀ v ∈ d'.pages, Valid L v := by
  induction fuel generalizing a d s with
  | zero => exact .pure h
  | succ fuel ih =>
    unfold deallocLoop
    split
    case isTrue ha =>
      split
      case h_1 => exact ih h
      case h_2 => exact ih h
      case h_3 x hx =>
        have hpages := pages_of_entry hx (ha.trans_le hhi)
        have hvalid : Valid L x.frame := h _ (by rw [hpages]; simp)
        have hend : x.frame ≠ 0 := by
          have := L.lt_data
          have := L.data_le
          unfold Valid at hvalid
          omega
        rw [if_neg hend]
        refine (kfree_valid hvalid).bind fun _ t _ => ih fun v hv => h v ?_
        rw [hpages]
        exact Multiset.mem_add.mpr (.inr hv)
    case isFalse => exact .pure h

theorem freeTables_valid (h : ∀ i t, d.pde i = some t → Valid L t.page) :
    Finishes Never (freeTables L d is) s fun _ _ => True := by
  induction is generalizing s with
  | nil => exact .pure trivial
  | cons i is ih =>
    unfold freeTables
    split
    case h_1 => exact ih
    case h_2 t ht => exact (kfree_valid (h i t ht)).bind fun _ _ _ => ih

theorem mem_pages_of_pde (h : d.pde i = some t) : t.page ∈ d.pages := by
  rw [Pgdir.pages, Multiset.mem_add, Multiset.mem_sum]
  exact .inr ⟨i, Finset.mem_univ i, by simp [tablePages, h]⟩

theorem freevm_valid (h : ∀ v ∈ d.pages, Valid L v) : Finishes Never (freevm L d) s fun _ _ => True := by
  have hdealloc : Finishes Never (deallocuvm L d 0x80000000 0) s fun d' _ => ∀ v ∈ d'.pages, Valid L v := by
    unfold deallocuvm
    rw [if_neg (by decide)]
    exact deallocLoop_valid (by decide) h
  refine hdealloc.bind fun d' t hd' => ?_
  have hpde : ∀ i t, d'.pde i = some t → Valid L t.page := fun i t ht => hd' _ (mem_pages_of_pde ht)
  generalize List.finRange 1024 = is
  refine .bind (freeTables_valid hpde) fun _ t _ => ?_
  refine (kfree_valid (hd' d'.page ?_)).mono fun _ _ _ => trivial
  rw [Pgdir.pages]
  simp

end Xv6.Vm
