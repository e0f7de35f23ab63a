import Xv6.Vm.Tables

namespace Xv6.Vm

open Lib Prog Pgdir

def free (s : Kmem) : Multiset Page := s.freelist

def pagesOf (d : Option Pgdir) : Multiset Page := d.elim 0 Pgdir.pages

variable {L : Layout} {d : Pgdir} {a : Nat} {e : Pte} {α : Type}

theorem kalloc_balances (i : Multiset Page) : Balances free kalloc i fun r => r.elim 0 ({·}) + i := by
  rintro ⟨l, c⟩ r t h
  cases l with
  | nil =>
    cases c with
    | false =>
      cases h
      simp
    | true => cases h
  | cons p l =>
    cases h
    simp [free, ← Multiset.cons_coe]

theorem kfree_balances (v : Page) : Balances free (kfree L v) ({v} + i) fun _ => i := by
  refine .ite (fun _ => .throw) fun _ => ?_
  rintro s r t h
  cases h
  simp [free, ← Multiset.cons_coe]

theorem walkpgdir_balances :
    Balances free (walkpgdir d a) d.pages fun r => r.elim d.pages Pgdir.pages := by
  unfold walkpgdir
  split
  case h_1 => exact .pure rfl
  case h_2 hnone =>
    refine (kalloc_balances d.pages).bind fun r => ?_
    cases r with
    | none => exact .pure (zero_add _)
    | some p =>
      have htable : ¬ d.HasTable a := by simp [HasTable, hnone]
      exact .pure ((add_comm _ _).trans (pages_setTable_empty htable).symm)

structure Walked (d : Pgdir) (a : Nat) (d' : Pgdir) : Prop where
  table : d'.HasTable a
  tables : ∀ b, d.HasTable b → d'.HasTable b
  lookup : ∀ b, d'.lookup b = d.lookup b
  other : ∀ i ≠ pdx a, d'.pde i = d.pde i

theorem walkpgdir_returns : Returns (walkpgdir d a) fun r => ∀ d' ∈ r, Walked d a d' := by
  unfold walkpgdir
  split
  case h_1 t ht =>
    refine .pure fun d' hd' => ?_
    cases hd'
    exact ⟨by simp [HasTable, ht], fun _ h => h, fun _ => rfl, fun _ _ => rfl⟩
  case h_2 hnone =>
    refine Returns.any.bind fun r _ => ?_
    cases r with
    | none => exact .pure (by rintro d' ⟨⟩)
    | some p =>
      have htable : ¬ d.HasTable a := by simp [HasTable, hnone]
      refine .pure fun d' hd' => ?_
      cases hd'
      exact ⟨hasTable_setTable.mpr (.inl rfl), fun b h => hasTable_setTable.mpr (.inr h),
        fun b => lookup_setTable_empty htable, fun i hi => pde_setTable_of_ne hi⟩

theorem mappage_balances : Balances free (mappage d a e) (d.pages + owned a (some e))
    fun r => r.1.pages + if r.2 then 0 else owned a (some e) := by
  refine (walkpgdir_balances.frame _).bind_returns walkpgdir_returns fun r hr => ?_
  cases r with
  | none => exact .pure rfl
  | some d' =>
    have hwalk := hr d' rfl
    refine .ite (fun _ => .throw) fun hnone => .pure ?_
    have hlookup : d'.lookup a = none := by simpa [Pgdir.lookup] using hnone
    have hpages := pages_setEntry (e := some e) hwalk.table
    rw [hlookup, owned_none] at hpages
    simpa using hpages.symm

structure Mapped (d : Pgdir) (a : Nat) (e : Pte) (r : Pgdir × Bool) : Prop where
  tables : ∀ b, d.HasTable b → r.1.HasTable b
  entry : r.2 = true → r.1.lookup a = some e
  lookup : ∀ b < maxPage, b ≠ a → r.1.lookup b = d.lookup b
  other : ∀ i ≠ pdx a, r.1.pde i = d.pde i

theorem mappage_returns (ha : a < maxPage) : Returns (mappage d a e) (Mapped d a e) := by
  refine walkpgdir_returns.bind fun r hr => ?_
  cases r with
  | none => exact .pure ⟨fun _ h => h, (nomatch ·), fun _ _ _ => rfl, fun _ _ => rfl⟩
  | some d' =>
    have hwalk := hr d' rfl
    refine .ite (fun _ => .throw) fun _ => .pure ⟨?_, ?_, ?_, ?_⟩
    · exact fun b h => hasTable_setEntry.mpr (hwalk.tables b h)
    · exact fun _ => lookup_setEntry_self hwalk.table
    · intro b hb hne
      rw [lookup_setEntry_of_ne ha hb hne, hwalk.lookup]
    · intro i hi
      rw [pde_setEntry_of_ne hi, hwalk.other i hi]

theorem mappage_kernel_balances (h : 512 ≤ (pdx a).val) :
    Balances free (mappage d a e) d.pages fun r => r.1.pages := by
  have howned : owned a (some e) = 0 := if_neg (by omega)
  have hmap := mappage_balances (d := d) (a := a) (e := e)
  simpa only [howned, ite_self, add_zero] using hmap

theorem mappages_balances (h : ∀ b, a ≤ b → b ≤ a + n → 512 ≤ (pdx b).val) :
    Balances free (mappages n d a e) d.pages fun r => r.1.pages := by
  have ha : 512 ≤ (pdx a).val := h a le_rfl (by omega)
  induction n generalizing d a e with
  | zero => exact mappage_kernel_balances ha
  | succ n ih =>
    refine (mappage_kernel_balances ha).bind fun r => ?_
    obtain ⟨d', ok⟩ := r
    refine .ite (fun _ => ?_) fun _ => .pure rfl
    exact ih (fun b hb hb' => h b (by omega) (by omega)) (h (a + 1) (by omega) (by omega))

theorem mappage_user_balances (h : (pdx a).val < 512) :
    Balances free (mappages 0 d a e) ({e.frame} + d.pages)
      fun r => r.1.pages + if r.2 then 0 else {e.frame} := by
  have hmap := mappage_balances (d := d) (a := a) (e := e)
  simp only [owned_user h] at hmap
  exact hmap.conseq (add_comm _ _) fun _ => rfl

variable {hi fuel : Nat}

theorem pages_of_entry (hx : d.entry a = some (some x)) (ha : a < kernbase) :
    d.pages = {x.frame} + (d.setEntry a none).pages := by
  have hpages := pages_setEntry (e := none) (HasTable.of_entry hx)
  have huser : (pdx a).val < 512 := by
    rw [pdx_lt_iff (ha.trans (by decide))]
    exact ha
  rw [lookup_of_entry hx, owned_user huser, owned_none, add_zero] at hpages
  exact hpages.symm.trans (add_comm _ _)

theorem deallocLoop_balances (hhi : hi ≤ kernbase) :
    Balances free (deallocLoop L hi fuel a d) d.pages Pgdir.pages := by
  induction fuel generalizing a d with
  | zero => exact .pure rfl
  | succ fuel ih =>
    refine .ite (fun ha => ?_) fun _ => .pure rfl
    split
    case h_1 => exact ih
    case h_2 => exact ih
    case h_3 x hx =>
      refine .ite (fun _ => .throw) fun _ => ?_
      rw [pages_of_entry hx (ha.trans_le hhi)]
      exact (kfree_balances x.frame).bind fun _ => ih

structure Unmapped (d : Pgdir) (a hi : Nat) (d' : Pgdir) : Prop where
  tables : ∀ b, d'.HasTable b ↔ d.HasTable b
  gone : ∀ b, a ≤ b → b < hi → d'.lookup b = none
  lookup : ∀ b < maxPage, b < a ∨ hi ≤ b → d'.lookup b = d.lookup b

theorem deallocLoop_returns (hhi : hi ≤ kernbase) (hfuel : hi - a ≤ fuel) :
    Returns (deallocLoop L hi fuel a d) (Unmapped d a hi) := by
  induction fuel generalizing a d with
  | zero => exact .pure ⟨fun _ => Iff.rfl, fun b hb hb' => by omega, fun _ _ _ => rfl⟩
  | succ fuel ih =>
    refine .ite (fun ha => ?_)
      fun _ => .pure ⟨fun _ => Iff.rfl, fun b hb hb' => by omega, fun _ _ _ => rfl⟩
    have hmax : hi ≤ maxPage := hhi.trans (by decide)
    split
    case h_1 hnone =>
      refine (ih (by omega)).mono fun d' h => ⟨h.tables, fun b hb hb' => ?_, fun b hb hb' => ?_⟩
      · by_cases hjump : (a / 1024 + 1) * 1024 ≤ b
        · exact h.gone b hjump hb'
        · have hsame : pdx b = pdx a := by
            apply Fin.ext
            simp only [pdx, Fin.ofNat]
            omega
          have htable : ¬ d.HasTable b := by
            rw [HasTable, hsame]
            exact entry_eq_none.mp hnone
          exact lookup_eq_none_of_not_hasTable fun hb'' => htable ((h.tables b).mp hb'')
      · refine h.lookup b hb ?_
        omega
    case h_2 hnone =>
      refine (ih (by omega)).mono fun d' h => ⟨h.tables, fun b hb hb' => ?_, fun b hb hb' => ?_⟩
      · by_cases hba : b = a
        · subst hba
          rw [h.lookup b (by omega) (by omega), lookup_of_entry hnone]
        · exact h.gone b (by omega) hb'
      · exact h.lookup b hb (by omega)
    case h_3 x hx =>
      refine .ite (fun _ => .throw) fun _ => Returns.any.bind fun _ _ => ?_
      have htable := HasTable.of_entry hx
      refine (ih (by omega)).mono fun d' h => ⟨fun b => ?_, fun b hb hb' => ?_, fun b hb hb' => ?_⟩
      · rw [h.tables, hasTable_setEntry]
      · by_cases hba : b = a
        · subst hba
          rw [h.lookup b (by omega) (by omega), lookup_setEntry_self htable]
        · exact h.gone b (by omega) hb'
      · rw [h.lookup b hb (by omega), lookup_setEntry_of_ne (by omega) hb (by omega)]

variable {sz : Word}

theorem ceil_le_kernbase (h : sz ≤ 0x80000000) : (sz.toNat + 4095) / 4096 ≤ kernbase := by
  have hsz : sz.toNat ≤ 2147483648 := h
  simp only [kernbase]
  omega

theorem deallocuvm_balances (h : oldsz ≤ 0x80000000) :
    Balances free (deallocuvm L d oldsz newsz) d.pages Pgdir.pages :=
  Balances.ite (fun _ => .pure rfl) fun _ => deallocLoop_balances (ceil_le_kernbase h)

theorem freeTables_balances (is : List (Fin 1024)) :
    Balances free (freeTables L d is) ((is.map fun i => (d.pde i).elim 0 fun t => {t.page}).sum + i)
      fun _ => i := by
  induction is with
  | nil => exact .pure (by simp)
  | cons j is ih =>
    unfold freeTables
    cases hj : d.pde j with
    | none => simpa [hj] using ih
    | some t =>
      simp only [List.map_cons, hj, Option.elim_some, List.sum_cons, add_assoc]
      exact (kfree_balances t.page).bind fun _ => ih

theorem freevm_balances : Balances free (freevm L d) (d.pages + i) fun _ => i := by
  have hzero : (pgroundup 0).toNat / 4096 = 0 := by decide
  have hdealloc : Returns (deallocuvm L d 0x80000000 0) fun d' => ∀ b < kernbase, d'.lookup b = none :=
    Returns.ite (fun h => absurd h (by decide)) fun _ =>
      (deallocLoop_returns (by decide) le_rfl).mono fun d' h b hb => h.gone b (by omega) hb
  refine ((deallocuvm_balances (by decide)).frame i).bind_returns hdealloc fun d' hd' => ?_
  rw [pages_of_lookup_none hd', Fin.sum_univ_def, add_right_comm, add_comm]
  refine (freeTables_balances _).bind fun _ => ?_
  exact kfree_balances d'.page

theorem freevm_none_balances (ho : o none = 0) :
    Balances free (do freevm L d; return none) d.pages o := by
  have hfree := freevm_balances (L := L) (d := d) (i := 0)
  rw [add_zero] at hfree
  exact hfree.bind fun _ => .pure ho.symm

theorem kmap_kernel (hk : k ∈ kmap L) (hb : k.virt ≤ b)
    (hb' : b ≤ k.virt + (k.size - 1)) : 512 ≤ (pdx b).val := by
  have hdata := L.lt_data
  have hdata' := L.data_le
  have hend := L.end_le
  simp only [kmap, kernbase, phystop, List.mem_cons, List.not_mem_nil, or_false] at hk
  simp only [pdx, Fin.ofNat]
  rcases hk with rfl | rfl | rfl | rfl <;> dsimp only at hb hb' <;> omega

theorem mapKernel_balances (hks : ks ⊆ kmap L) :
    Balances free (mapKernel L ks d) d.pages pagesOf := by
  induction ks generalizing d with
  | nil => exact .pure rfl
  | cons k ks ih =>
    obtain ⟨hk, hks⟩ := List.cons_subset.mp hks
    refine (mappages_balances fun b => kmap_kernel hk).bind fun r => ?_
    obtain ⟨d', ok⟩ := r
    exact .ite (fun _ => ih hks) fun _ => freevm_none_balances rfl

theorem pages_empty (p : Page) : (⟨p, fun _ => none⟩ : Pgdir).pages = {p} := by
  simp [Pgdir.pages, tablePages]

theorem setupkvm_balances : Balances free (setupkvm L) i fun r => pagesOf r + i := by
  refine (kalloc_balances i).bind fun r => ?_
  cases r with
  | none => exact .pure rfl
  | some p =>
    have hmap := (mapKernel_balances (d := ⟨p, fun _ => none⟩) (List.Subset.refl (kmap L))).frame i
    rwa [pages_empty] at hmap

theorem allocLoop_balances (h : newsz ≤ 0x80000000) (has : ∀ a ∈ as, (pdx a).val < 512) :
    Balances free (allocLoop L oldsz newsz as d) d.pages fun r => r.1.pages := by
  induction as generalizing d with
  | nil => exact .pure rfl
  | cons a as ih =>
    obtain ⟨ha, has⟩ := List.forall_mem_cons.mp has
    refine (kalloc_balances d.pages).bind fun r => ?_
    cases r with
    | none =>
      rw [Option.elim_none, zero_add]
      exact (deallocuvm_balances h).bind fun _ => .pure rfl
    | some mem =>
      refine (mappage_user_balances (e := ⟨mem, true, true⟩) ha).bind fun r => ?_
      obtain ⟨d', ok⟩ := r
      cases ok with
      | true =>
        have hrest := ih (d := d') has
        simpa using hrest
      | false =>
        refine ((deallocuvm_balances h).frame {mem}).bind fun d'' => ?_
        rw [add_comm]
        exact (kfree_balances mem).bind fun _ => .pure rfl

theorem pdx_pagesBelow (h : sz < 0x80000000) (ha : a ∈ pagesBelow k sz) : (pdx a).val < 512 := by
  have hsz : sz.toNat < 2147483648 := h
  have hmem := List.mem_range'_1.mp ha
  simp only [pdx, Fin.ofNat]
  omega

theorem allocuvm_balances : Balances free (allocuvm L d oldsz newsz) d.pages fun r => r.1.pages := by
  refine .ite (fun _ => .pure rfl) fun h => ?_
  refine .ite (fun _ => .pure rfl) fun _ => ?_
  rw [BitVec.not_le] at h
  exact allocLoop_balances (BitVec.le_of_lt h) fun a => pdx_pagesBelow h

theorem copyLoop_balances (his : ∀ i ∈ is, (pdx i).val < 512) :
    Balances free (copyLoop L pgdir is d) d.pages pagesOf := by
  induction is generalizing d with
  | nil => exact .pure rfl
  | cons i is ih =>
    obtain ⟨hi, his⟩ := List.forall_mem_cons.mp his
    unfold copyLoop
    split
    case h_1 => exact .throw
    case h_2 => exact .throw
    case h_3 x hx =>
      refine (kalloc_balances d.pages).bind fun r => ?_
      cases r with
      | none =>
        rw [Option.elim_none, zero_add]
        exact freevm_none_balances rfl
      | some mem =>
        refine (mappage_user_balances (e := { x with frame := mem }) hi).bind fun r => ?_
        obtain ⟨d', ok⟩ := r
        cases ok with
        | true =>
          have hrest := ih (d := d') his
          simpa using hrest
        | false =>
          have hfree := kfree_balances (L := L) (i := d'.pages) mem
          rw [add_comm] at hfree
          exact hfree.bind fun _ => freevm_none_balances rfl

theorem copyuvm_balances (h : sz < 0x80000000) :
    Balances free (copyuvm L pgdir sz) 0 pagesOf := by
  refine setupkvm_balances.bind fun r => ?_
  rw [add_zero]
  cases r with
  | none => exact .pure rfl
  | some d => exact copyLoop_balances fun a => pdx_pagesBelow h

end Xv6.Vm
