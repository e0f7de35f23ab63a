import Xv6.Paging.Space

namespace Xv6.Paging

open Lib Prog
open Vm (Page Layout maxPage kernbase phystop)

/-- From `m` the program ends in `Q`: no panic, no fault and no endless loop. -/
abbrev Ends {α : Type} (x : M α) (m : Mem) (Q : α → Mem → Prop) : Prop := Finishes (fun _ => False) x m Q

variable {α : Type}

section access

variable (hp : p < phystop)

include hp

theorem readPage_bind (h : Finishes E (f (m.word p)) m R) :
    Finishes E (readPage p >>= f) m R := by
  refine .bind (Q := fun ws t => ws = m.word p ∧ t = m) (.get ?_) ?_
  · rw [if_pos hp]
    exact .pure ⟨rfl, rfl⟩
  · rintro _ _ ⟨rfl, rfl⟩
    exact h

theorem writePage_ends (h : Q () (m.setPage p ws)) : Finishes E (writePage p ws) m Q := by
  refine .get ?_
  rw [if_pos hp]
  exact .put h

theorem writePage_bind (h : Finishes E (f ()) (m.setPage p ws) R) :
    Finishes E (writePage p ws >>= f) m R :=
  (writePage_ends (Q := fun _ t => t = m.setPage p ws) hp rfl).bind fun _ _ ht => ht ▸ h

theorem load_bind (h : Finishes E (f (m.word p i)) m R) : Finishes E (load p i >>= f) m R := by
  refine .bind (Q := fun w t => w = m.word p i ∧ t = m) (readPage_bind hp (.pure ⟨rfl, rfl⟩)) ?_
  rintro _ _ ⟨rfl, rfl⟩
  exact h

theorem store_ends (h : Q () (m.setWord p i w)) : Finishes E (store p i w) m Q :=
  readPage_bind hp (writePage_ends hp h)

theorem store_bind (h : Finishes E (f ()) (m.setWord p i w) R) :
    Finishes E (store p i w >>= f) m R :=
  (store_ends (Q := fun _ t => t = m.setWord p i w) hp rfl).bind fun _ _ ht => ht ▸ h

end access

theorem kfree_ends (hp : Ram L p) (h : Q () (m.freed p)) : Finishes E (kfree L p) m Q := by
  unfold kfree
  rw [if_neg (not_or.mpr ⟨not_lt.mpr hp.1, not_le.mpr hp.2⟩)]
  exact .get (writePage_bind hp.2 h)

theorem kfree_bind (hp : Ram L p) (h : Finishes E (f ()) (m.freed p) R) :
    Finishes E (kfree L p >>= f) m R :=
  (kfree_ends (Q := fun _ t => t = m.freed p) hp rfl).bind fun _ _ ht => ht ▸ h

theorem p2v_ne_zero (hp : p < phystop) : p2v p ≠ 0 := by
  intro h
  have hnat := congrArg BitVec.toNat h
  rw [toNat_p2v hp, show (0 : Word).toNat = 0 from rfl] at hnat
  omega

theorem runPage_p2v (hp : p < phystop) : runPage (p2v p) = pure p := by
  have hnat := toNat_p2v hp
  have hle : (0x80000000 : Word) ≤ p2v p := by
    rw [BitVec.le_def, hnat, show (0x80000000 : Word).toNat = 0x80000000 from rfl]
    omega
  rw [runPage, if_pos ⟨hle, by rw [hnat]; omega⟩, hnat, Nat.add_sub_cancel_left, Nat.mul_div_cancel_left p (by decide)]

theorem kalloc_bind (hchain : Chain m.word m.freelist l) (hram : ∀ p ∈ l, p < phystop)
    (hnil : l = [] → Finishes E (f none) m R)
    (hcons : ∀ p l', l = p :: l' → Finishes E (f (some p)) (m.taken p) R) : Finishes E (kalloc >>= f) m R := by
  cases l with
  | nil =>
    refine .bind (Q := fun r t => r = none ∧ t = m) (.get ?_) ?_
    · rw [if_pos (show m.freelist = 0 from hchain)]
      exact .pure ⟨rfl, rfl⟩
    · rintro _ _ ⟨rfl, rfl⟩
      exact hnil rfl
  | cons p l =>
    have hp := hram p List.mem_cons_self
    refine .bind (Q := fun r t => r = some p ∧ t = m.taken p) (.get ?_) ?_
    · rw [if_neg (by rw [hchain.1]; exact p2v_ne_zero hp), hchain.1, runPage_p2v hp, pure_bind]
      exact load_bind hp (.set (.pure ⟨rfl, rfl⟩))
    · rintro _ _ ⟨rfl, rfl⟩
      exact hcons p l rfl

theorem walkpgdir_bind (hpd : pd < phystop) (hk : k < maxPage)
    (h : Finishes E (f ((m.table pd (Vm.pdx k)).map (·, Vm.ptx k))) m R) :
    Finishes E (walkpgdir pd (addr k) false >>= f) m R := by
  refine .bind (Q := fun r t => r = (m.table pd (Vm.pdx k)).map (·, Vm.ptx k) ∧ t = m)
    (load_bind hpd ?_) ?_
  · rw [pdx_addr hk, ptx_addr hk, Mem.table]
    split
    case isTrue => exact .pure ⟨rfl, rfl⟩
    case isFalse => exact .pure ⟨rfl, rfl⟩
  · rintro _ _ ⟨rfl, rfl⟩
    exact h

structure Walked (L : Layout) (region : Page → Prop) (m₀ m : Mem) (pd : Page) (hand : Option Page) (k : Nat)
    (t : Page) (m' : Mem) : Prop where
  inv : ∃ l, Inv L region m₀ m' l pd hand
  table : m'.table pd (Vm.pdx k) = some t
  other : ∀ i ≠ Vm.pdx k, m'.table pd i = m.table pd i
  old : m.table pd (Vm.pdx k) ≠ none → m' = m
  pte : m'.pte pd = m.pte pd
  kept : ∀ P q, P ≠ .dir → m.num pd hand P = some q → m'.word q = m.word q

theorem walkpgdir_alloc (h : Inv L region m₀ m l pd hand) (hk : k < maxPage) :
    Ends (walkpgdir pd (addr k) true) m fun r m' =>
      match r with
      | none => m' = m ∧ l = [] ∧ m.table pd (Vm.pdx k) = none
      | some (t, j) => j = Vm.ptx k ∧ Walked L region m₀ m pd hand k t m' := by
  have hpd := (h.ram (P := .dir) rfl).2
  refine load_bind hpd ?_
  rw [pdx_addr hk, ptx_addr hk]
  by_cases hpresent : present (m.word pd (Vm.pdx k)) = true
  · have htable : m.table pd (Vm.pdx k) = some (frame (m.word pd (Vm.pdx k))) := if_pos hpresent
    rw [if_pos hpresent]
    exact .pure ⟨rfl, ⟨l, h⟩, htable, fun _ _ => rfl, fun _ => rfl, rfl, fun _ _ _ _ => rfl⟩
  · have hnone : m.table pd (Vm.pdx k) = none := if_neg hpresent
    rw [if_neg hpresent, if_pos rfl]
    refine kalloc_bind h.chain (fun p hp => (h.ram_free hp).2) (fun hl => ?_) fun p l' hl => ?_
    · exact .pure ⟨rfl, hl, hnone⟩
    · subst hl
      have hp := h.ram_free List.mem_cons_self
      refine writePage_bind hp.2 (store_bind hpd (.pure ⟨rfl, ?_⟩))
      change Walked L region m₀ m pd hand k p (m.addTable pd p (Vm.pdx k))
      have htable := fun j => Mem.table_addTable (m := m) (i := Vm.pdx k) (j := j) h.head_ne_dir hp.lt_maxPage
      refine ⟨⟨l', h.addTable hnone⟩, (htable _).trans (if_pos rfl), fun i hi => (htable i).trans (if_neg hi),
        fun hne => absurd hnone hne, h.pte_addTable hnone, fun P q hP hq => Mem.word_addTable_of_ne ?_ ?_⟩
      · exact h.ne (Q := .dir) hq rfl hP
      · rintro rfl
        exact h.not_free hq List.mem_cons_self

structure MappedUser (L : Layout) (region : Page → Prop) (m₀ m : Mem) (pd p : Page) (k : Nat) (perm : Word)
    (m' : Mem) : Prop where
  inv : ∃ l, Inv L region m₀ m' l pd none
  pte : ∀ b < maxPage, m'.pte pd b = if b = k then addr p ||| perm ||| 1 else m.pte pd b
  table : m'.table pd (Vm.pdx k) ≠ none
  other : ∀ i ≠ Vm.pdx k, m'.table pd i = m.table pd i
  kept : ∀ P q, P ≠ .dir → (∀ i, P ≠ .table i) → m.num pd (some p) P = some q → m'.word q = m.word q

theorem mappagesLoop_step (h : Inv L region m₀ m l pd hand)
    (hk : k < maxPage) (habsent : present (m.pte pd k) = false) (hfail : l = [] → m.table pd (Vm.pdx k) = none → Q false m)
    (hmap : ∀ t m₁, Walked L region m₀ m pd hand k t m₁ →
      Ends (if addr k = last then return true else mappagesLoop pd last perm fuel (addr k + 4096) (pa + 4096))
        (m₁.setWord t (Vm.ptx k) (pa ||| perm ||| 1)) Q) :
    Ends (mappagesLoop pd last perm (fuel + 1) (addr k) pa) m Q := by
  unfold mappagesLoop
  refine (walkpgdir_alloc h hk).bind ?_
  rintro (_ | ⟨t, j⟩) m₁ hr
  · obtain ⟨rfl, hl, hnone⟩ := hr
    exact .pure (hfail hl hnone)
  · obtain ⟨rfl, hwalk⟩ := hr
    obtain ⟨l₁, hinv⟩ := hwalk.inv
    have ht : t < phystop := (hinv.ram (P := .table (Vm.pdx k)) hwalk.table).2
    refine load_bind ht ?_
    have hpte : m₁.word t (Vm.ptx k) = m.pte pd k := by
      rw [← Mem.pte_of_table hwalk.table, hwalk.pte]
    rw [hpte, habsent, if_neg (by simp)]
    exact store_bind ht (hmap t m₁ hwalk)

theorem pgrounddown_last (hk : k < maxPage) : pgrounddown (addr k + 4096 - 1) = addr k := by
  apply BitVec.eq_of_toNat_eq
  have hnat : (addr k + 4096 - 1).toNat = 4096 * k + 4095 := by
    have haddr := toNat_addr hk
    simp only [maxPage] at hk
    have hsub : addr k + 4096 - 1 = addr k + 4095 := by
      rw [BitVec.sub_eq_add_neg, BitVec.add_assoc]
      rfl
    rw [hsub, BitVec.toNat_add, haddr, show (4095 : Word).toNat = 4095 from rfl]
    omega
  rw [pgrounddown, Vm.toNat_pgrounddown, hnat, toNat_addr hk]
  omega

theorem mappages_user (h : Inv L region m₀ m l pd (some p)) (hk : k < kernbase)
    (habsent : present (m.pte pd k) = false) (hperm : perm.toNat < 4096) :
    Ends (mappages pd (addr k) 4096 (addr p) perm) m fun r m' =>
      match r with
      | false => m' = m ∧ l = [] ∧ m.table pd (Vm.pdx k) = none
      | true => MappedUser L region m₀ m pd p k perm m' := by
  have hmax : k < maxPage := lt_trans hk (by decide)
  have hp := h.ram (P := .hand) rfl
  unfold mappages
  rw [pgrounddown_last hmax, pgrounddown_addr hmax]
  refine mappagesLoop_step h hmax habsent (fun hl hnone => ⟨rfl, hl, hnone⟩) fun t m₁ hwalk => ?_
  rw [if_pos rfl]
  obtain ⟨l₁, hinv⟩ := hwalk.inv
  have hmapped := hinv.map (w := addr p ||| perm ||| 1) hk hwalk.table (by rw [hwalk.pte, habsent])
    present_entry (frame_entry hp.lt_maxPage hperm)
  have htables := hinv.table_setPte (i := Vm.ptx k) (w := addr p ||| perm ||| 1) hwalk.table
  refine .pure ⟨⟨l₁, hmapped⟩, fun b hb => ?_, ?_, fun i hi => ?_, fun P q hdir htable hq => ?_⟩
  · rw [hinv.pte_setPte hmax hwalk.table hb, hwalk.pte]
  · rw [htables, hwalk.table]
    exact Option.some_ne_none t
  · rw [htables, hwalk.other i hi]
  · rw [← hwalk.kept P q hdir hq]
    have hnum : m₁.num pd (some p) P = some q := by
      cases P with
      | dir => exact absurd rfl hdir
      | table i => exact absurd rfl (htable i)
      | page b => exact (Mem.frameAt_congr (congrFun hwalk.pte b)).trans hq
      | hand => exact hq
    exact hinv.word_setPte_of_place hwalk.table hnum (htable _)

end Xv6.Paging
