import Xv6.Paging.Dealloc
import Mathlib.Data.Fintype.Card

namespace Xv6.Paging

open Lib Prog
open Vm (Page Layout maxPage kernbase phystop pgroundup)

variable {L : Layout} {region : Page → Prop} {m₀ m m' : Mem} {l : List Page} {pd p q : Page}
  {hand : Option Page} {k lo : Nat}

def Mem.mapping (m : Mem) (pd : Page) (k : Nat) : Option Word :=
  if present (m.pte pd k) then some (m.pte pd k) else none

theorem Mem.mapping_congr (h : m'.pte pd k = m.pte pd k) : m'.mapping pd k = m.mapping pd k := by
  rw [mapping, mapping, h]

theorem Mem.mapping_eq_none : m.mapping pd k = none ↔ present (m.pte pd k) = false := by
  simp [mapping]

theorem Mem.frameAt_of_mapping (h : m'.mapping pd k = m.mapping pd k) : m'.frameAt pd k = m.frameAt pd k := by
  unfold mapping at h
  unfold frameAt
  by_cases hp : present (m.pte pd k) = true
  · by_cases hp' : present (m'.pte pd k) = true
    · rw [if_pos hp, if_pos hp'] at h
      rw [Option.some.inj h]
    · rw [if_pos hp, if_neg hp'] at h
      cases h
  · by_cases hp' : present (m'.pte pd k) = true
    · rw [if_neg hp, if_pos hp'] at h
      cases h
    · simp [hp, hp']

def Short (region : Page → Prop) (n : Nat) : Prop :=
  ∀ l : List Page, l.Nodup → (∀ p ∈ l, region p) → l.length ≤ 1026 + n

theorem Inv.length_le (h : Inv L region m₀ m l pd hand) (hn : ∀ b, n ≤ b → m.frameAt pd b = none) {l₀ : List Page}
    (hnodup : l₀.Nodup) (hl : ∀ p ∈ l₀, region p) : l₀.length ≤ l.length + (1026 + n) := by
  obtain ⟨tables, htables, hcard⟩ : ∃ s : Finset (Fin 1024), (∀ i, i ∈ s) ∧ s.card = 1024 :=
    ⟨Finset.univ, Finset.mem_univ, Fintype.card_fin 1024⟩
  let places : Finset Place := ({.dir, .hand} ∪ tables.image .table) ∪ (Finset.range n).image .page
  have hplaces : places.card ≤ 1026 + n := by
    simp only [places]
    have htwo : ({.dir, .hand} : Finset Place).card ≤ 2 := Finset.card_le_two
    have htable : (tables.image Place.table).card ≤ 1024 := Finset.card_image_le.trans hcard.le
    have hpage : ((Finset.range n).image Place.page).card ≤ n := Finset.card_image_le.trans (Finset.card_range n).le
    have hunion := Finset.card_union_le ({Place.dir, .hand} ∪ tables.image Place.table) ((Finset.range n).image .page)
    have hunion' := Finset.card_union_le ({.dir, .hand} : Finset Place) (tables.image .table)
    omega
  have hsub : (l₀.toFinset).image some ⊆ (l.toFinset).image some ∪ places.image (m.num pd hand) := by
    intro o ho
    obtain ⟨p, hp, rfl⟩ := Finset.mem_image.mp ho
    rcases (h.cover p).mp (hl p (List.mem_toFinset.mp hp)) with hfree | ⟨P, hP⟩
    · exact Finset.mem_union_left _ (Finset.mem_image_of_mem some (List.mem_toFinset.mpr hfree))
    refine Finset.mem_union_right _ (Finset.mem_image.mpr ⟨P, ?_, hP⟩)
    cases P with
    | dir => simp [places]
    | hand => simp [places]
    | table i => simp [places, htables]
    | page b =>
      have hb : b < n := by
        by_contra hb
        rw [Mem.num, hn b (by omega)] at hP
        cases hP
      simp [places, hb]
  calc l₀.length = (l₀.toFinset.image some).card := by
        rw [Finset.card_image_of_injective _ (Option.some_injective Page), List.toFinset_card_of_nodup hnodup]
    _ ≤ ((l.toFinset).image some ∪ places.image (m.num pd hand)).card := Finset.card_le_card hsub
    _ ≤ ((l.toFinset).image some).card + (places.image (m.num pd hand)).card := Finset.card_union_le _ _
    _ ≤ l.length + (1026 + n) :=
      Nat.add_le_add (Finset.card_image_le.trans (List.toFinset_card_le l)) (Finset.card_image_le.trans hplaces)

theorem Inv.short (h : Inv L region m₀ m [] pd hand) (hn : ∀ b, n ≤ b → m.frameAt pd b = none) : Short region n := by
  intro l₀ hnodup hl
  have hlen := h.length_le hn hnodup hl
  rwa [List.length_nil, Nat.zero_add] at hlen

structure Grown (mₛ : Mem) (pd : Page) (lo k : Nat) (m : Mem) : Prop where
  old : ∀ b < maxPage, b < lo ∨ k ≤ b → m.mapping pd b = mₛ.mapping pd b
  new : ∀ b, lo ≤ b → b < k → ∃ p < maxPage, m.pte pd b = addr p ||| 6 ||| 1 ∧ m.word p = fun _ => 0
  kept : ∀ b q, mₛ.frameAt pd b = some q → m.word q = mₛ.word q
  table : ∀ i : Fin 1024, 512 ≤ i.val → m.table pd i = mₛ.table pd i

namespace Grown

variable {mₛ : Mem}

theorem refl : Grown m pd lo lo m where
  old := fun _ _ _ => rfl
  new := fun b hb hb' => absurd hb (by omega)
  kept := fun _ _ _ => rfl
  table := fun _ _ => rfl

theorem pdx_lt (hk : k < kernbase) : (Vm.pdx k).val < 512 := (Vm.pdx_lt_iff (lt_trans hk (by decide))).mpr hk

section

variable (h : Grown mₛ pd lo k m) (habsent : ∀ b, lo ≤ b → mₛ.frameAt pd b = none)

include h habsent

theorem lt_and_frameAt (hq : mₛ.frameAt pd b = some q) : b < lo ∧ m.frameAt pd b = some q := by
  have hlt : b < lo := by
    by_contra hle
    rw [habsent b (by omega)] at hq
    cases hq
  have hmax : b < maxPage := lt_trans (Mem.frameAt_eq_some.mp hq).1 (by decide)
  exact ⟨hlt, by rw [Mem.frameAt_of_mapping (h.old b hmax (.inl hlt)), hq]⟩

theorem frameAt_eq_none (hlo : lo ≤ k) (hb : k ≤ b) : m.frameAt pd b = none := by
  by_cases hmax : b < maxPage
  · rw [Mem.frameAt_of_mapping (h.old b hmax (.inr hb)), habsent b (by omega)]
  · have hkern : ¬b < kernbase := fun hlt => hmax (lt_trans hlt (by decide))
    simp [Mem.frameAt, hkern]

theorem of_word (hkern : k ≤ kernbase) (hpte : m'.pte pd = m.pte pd) (htable : m'.table pd = m.table pd)
    (hword : ∀ b q, m.frameAt pd b = some q → m'.word q = m.word q) : Grown mₛ pd lo k m' where
  old := fun b hb hb' => by rw [Mem.mapping_congr (congrFun hpte b), h.old b hb hb']
  new := fun b hb hb' => by
    obtain ⟨q, hq, hentry, hzero⟩ := h.new b hb hb'
    refine ⟨q, hq, by rw [hpte, hentry], ?_⟩
    rw [hword b q, hzero]
    refine Mem.frameAt_eq_some.mpr ⟨by omega, ?_⟩
    rw [hentry]
    exact ⟨present_entry, frame_entry hq (by decide)⟩
  kept := fun b q hq => by rw [hword b q (h.lt_and_frameAt habsent hq).2, h.kept b q hq]
  table := fun i hi => by rw [htable, h.table i hi]

end

theorem step (h : Grown mₛ pd lo k m) (hinv : Inv L region m₀ m l pd (some p)) (hk : k < kernbase) (hlo : lo ≤ k)
    (hzero : m.word p = fun _ => 0) (hm' : MappedUser L region m₀ m pd p k 6 m')
    (habsent : ∀ b, lo ≤ b → mₛ.frameAt pd b = none) : Grown mₛ pd lo (k + 1) m' where
  old := fun b hb hb' => by
    have hne : b ≠ k := by omega
    have hpte : m'.pte pd b = m.pte pd b := by rw [hm'.pte b hb, if_neg hne]
    rw [Mem.mapping_congr hpte]
    exact h.old b hb (by omega)
  new := fun b hb hb' => by
    have hmax : b < maxPage := lt_of_le_of_lt (Nat.le_of_lt_succ hb') (lt_trans hk (by decide))
    by_cases hbk : b = k
    · refine ⟨p, (hinv.ram (P := .hand) rfl).lt_maxPage, by rw [hm'.pte b hmax, if_pos hbk], ?_⟩
      rw [hm'.kept .hand p (by rintro ⟨⟩) (by rintro i ⟨⟩) rfl, hzero]
    · obtain ⟨q, hq, hpte, hword⟩ := h.new b hb (by omega)
      refine ⟨q, hq, by rw [hm'.pte b hmax, if_neg hbk, hpte], ?_⟩
      have hframe : m.frameAt pd b = some q := by
        refine Mem.frameAt_eq_some.mpr ⟨by omega, ?_⟩
        rw [hpte]
        exact ⟨present_entry, frame_entry hq (by decide)⟩
      rw [hm'.kept (.page b) q (by rintro ⟨⟩) (by rintro i ⟨⟩) hframe, hword]
  kept := fun b q hq => by
    obtain ⟨-, hframe⟩ := h.lt_and_frameAt habsent hq
    rw [hm'.kept (.page b) q (by rintro ⟨⟩) (by rintro i ⟨⟩) hframe, h.kept b q hq]
  table := fun i hi => by
    have hne : i ≠ Vm.pdx k := by
      rintro rfl
      exact absurd hi (not_le.mpr (pdx_lt hk))
    rw [hm'.other i hne, h.table i hi]

theorem undo (h : Grown mₛ pd lo k m) (hm' : Unmapped L region m₀ m l pd hand lo hi m') (hk : k ≤ hi)
    (hkern : hi ≤ kernbase) (habsent : ∀ b, lo ≤ b → mₛ.frameAt pd b = none) : Grown mₛ pd lo lo m' where
  old := fun b hb _ => by
    by_cases hrange : lo ≤ b ∧ b < hi
    · have hnone : mₛ.mapping pd b = none :=
        Mem.mapping_eq_none.mpr ((Mem.frameAt_eq_none (by omega)).mp (habsent b hrange.1))
      rw [hnone, Mem.mapping_eq_none, hm'.pte b hb]
      by_cases hp : present (m.pte pd b) = true
      · rw [if_pos ⟨hrange, hp⟩]
        rfl
      · rw [if_neg fun h => hp h.2]
        exact Bool.eq_false_of_not_eq_true hp
    · have hpte : m'.pte pd b = m.pte pd b := by rw [hm'.pte b hb, if_neg fun h => hrange h.1]
      rw [Mem.mapping_congr hpte, h.old b hb (by omega)]
  new := fun b hb hb' => absurd hb (by omega)
  kept := fun b q hq => by
    obtain ⟨hlt, hframe⟩ := h.lt_and_frameAt habsent hq
    rw [hm'.kept (.page b) q (by rintro i ⟨⟩) (by rintro _ ⟨⟩; exact .inl hlt) hframe, h.kept b q hq]
  table := fun i hi => by rw [hm'.table, h.table i hi]

end Grown

def Tables (mₛ : Mem) (pd : Page) (lo k : Nat) (m : Mem) : Prop :=
  ∀ i, m.table pd i ≠ none → mₛ.table pd i ≠ none ∨ ∃ b, lo ≤ b ∧ b < k ∧ Vm.pdx b = i

theorem Tables.step (h : Tables mₛ pd lo k m) (hlo : lo ≤ k) (hm' : ∀ i, i ≠ Vm.pdx k → m'.table pd i = m.table pd i) :
    Tables mₛ pd lo (k + 1) m' := by
  intro i hi
  by_cases hk : i = Vm.pdx k
  · exact .inr ⟨k, hlo, Nat.lt_succ_self k, hk.symm⟩
  · rw [hm' i hk] at hi
    refine (h i hi).imp_right ?_
    rintro ⟨b, hb, hlt, hpdx⟩
    exact ⟨b, hb, Nat.lt_succ_of_lt hlt, hpdx⟩

structure Allocated (L : Layout) (region : Page → Prop) (m₀ mₛ : Mem) (pd : Page) (lo hi : Nat) (newsz r : Word)
    (m' : Mem) : Prop where
  inv : ∃ l, Inv L region m₀ m' l pd none
  grown : (r = newsz ∧ Grown mₛ pd lo hi m') ∨ (r = 0 ∧ Short region hi ∧ Grown mₛ pd lo lo m')
  tables : r = newsz → Tables mₛ pd lo hi m'

theorem allocLoop_ends (h : Inv L region m₀ m l pd none) (hg : Grown mₛ pd (pageCount oldsz) k m)
    (ht : Tables mₛ pd (pageCount oldsz) k m) (habsent : ∀ b, pageCount oldsz ≤ b → mₛ.frameAt pd b = none)
    (hnew : newsz ≤ 0x80000000)
    (hlo : pageCount oldsz ≤ k) (hk : k ≤ pageCount newsz) (hfuel : pageCount newsz - k < fuel) :
    Ends (allocLoop L pd oldsz newsz fuel (addr k)) m fun r m' =>
      Allocated L region m₀ mₛ pd (pageCount oldsz) (pageCount newsz) newsz r m' := by
  have hkern := pageCount_le hnew
  induction fuel generalizing m l k with
  | zero => omega
  | succ fuel ih =>
    have hmax : k < maxPage := lt_of_le_of_lt (le_trans hk hkern) (by decide)
    unfold allocLoop
    by_cases hlt : k < pageCount newsz
    · have hkk : k < kernbase := lt_of_lt_of_le hlt hkern
      have hne : (0 : Word) ≠ newsz := by
        rintro rfl
        exact Nat.not_lt_zero k hlt
      rw [if_pos ((addr_lt hmax).mpr (lt_pageCount.mp hlt))]
      refine kalloc_bind h.chain (fun p hp => (h.ram_free hp).2) (fun hl => ?_) fun p l' hl => ?_
      · subst hl
        refine (deallocuvm_discard h hnew).bind fun _ m' hm' => .pure
          ⟨⟨_, hm'.inv⟩, .inr ⟨rfl, ?_, ?_⟩, fun h0 => absurd h0 hne⟩
        · exact h.short fun b hb => hg.frameAt_eq_none habsent hlo (le_trans hk hb)
        · exact hg.undo hm' hk hkern habsent
      · subst hl
        have hram := h.ram_free List.mem_cons_self
        have htaken := (h.take).setPage (P := .hand) (v := fun _ => 0) rfl (by rintro ⟨⟩) (by rintro i ⟨⟩)
        have hword : ∀ {q}, q ≠ p → ((m.taken p).setPage p fun _ => 0).word q = m.word q := Mem.word_setPage_of_ne
        have hdir := hword (h.head_ne_dir).symm
        have htables : ∀ i t, m.table pd i = some t → ((m.taken p).setPage p fun _ => 0).word t = m.word t := by
          intro i t ht
          refine hword ?_
          rintro rfl
          exact h.not_free (P := .table i) ht List.mem_cons_self
        have hgrown : Grown mₛ pd (pageCount oldsz) k ((m.taken p).setPage p fun _ => 0) := by
          refine hg.of_word habsent hkk.le (Mem.pte_congr hdir htables) (Mem.table_congr hdir) fun b q hq => hword ?_
          rintro rfl
          exact h.not_free (P := .page b) hq List.mem_cons_self
        refine writePage_bind hram.2 ((mappages_user htaken hkk ?_ (by decide)).bind ?_)
        · exact (Mem.frameAt_eq_none hkk).mp (hgrown.frameAt_eq_none habsent hlo le_rfl)
        · rintro (_ | _) m₁ hm₁
          · obtain ⟨rfl, rfl, -⟩ := hm₁
            refine (deallocuvm_discard htaken hnew).bind fun _ m' hm' => ?_
            have hp : Ram L p := hm'.inv.ram (P := .hand) rfl
            refine kfree_bind hp (.pure ⟨⟨_, hm'.inv.drop⟩, .inr ⟨rfl, ?_, ?_⟩, fun h0 => absurd h0 hne⟩)
            · exact htaken.short fun b hb => hgrown.frameAt_eq_none habsent hlo (le_trans hk hb)
            · have hundone := hgrown.undo hm' hk hkern habsent
              have hne : ∀ {P q}, m'.num pd (some p) P = some q → P ≠ .hand → (m'.freed p).word q = m'.word q :=
                fun hP hne => Mem.word_freed_of_ne (hm'.inv.ne (Q := .hand) hP rfl hne)
              have hdir' := hne (P := .dir) rfl (by rintro ⟨⟩)
              refine hundone.of_word habsent (by omega) ?_ (Mem.table_congr hdir') fun b q hq => ?_
              · exact Mem.pte_congr hdir' fun i t ht => hne (P := .table i) ht (by rintro ⟨⟩)
              · exact hne (P := .page b) hq (by rintro ⟨⟩)
          · obtain ⟨l₁, hinv₁⟩ := hm₁.inv
            rw [if_pos rfl, addr_add]
            refine ih hinv₁ (hgrown.step htaken hkk hlo Mem.word_setPage_self hm₁ habsent) ?_
              (by omega) (by omega) (by omega)
            exact ht.step hlo fun i hi => by rw [hm₁.other i hi, Mem.table_congr hdir]
    · rw [if_neg fun hlt' => hlt (lt_pageCount.mpr ((addr_lt hmax).mp hlt'))]
      obtain rfl : k = pageCount newsz := by omega
      exact .pure ⟨⟨l, h⟩, .inl ⟨rfl, hg⟩, fun _ => ht⟩

theorem allocuvm_ends (h : Inv L region m₀ m l pd none) (hold : oldsz ≤ 0x80000000)
    (habsent : ∀ b, pageCount oldsz ≤ b → m.frameAt pd b = none) :
    Ends (allocuvm L pd oldsz newsz) m fun r m' =>
      (0x80000000 ≤ newsz ∧ r = 0 ∧ m' = m) ∨ (newsz < oldsz ∧ r = oldsz ∧ m' = m) ∨
        (oldsz ≤ newsz ∧ newsz < 0x80000000 ∧
          Allocated L region m₀ m pd (pageCount oldsz) (pageCount newsz) newsz r m') := by
  unfold allocuvm
  split
  case isTrue hbig => exact .pure (.inl ⟨hbig, rfl, rfl⟩)
  case isFalse hsmall =>
    split
    case isTrue hless => exact .pure (.inr (.inl ⟨hless, rfl, rfl⟩))
    case isFalse hmore =>
      have hnew : newsz < 0x80000000 := BitVec.not_le.mp hsmall
      have hle : oldsz ≤ newsz := BitVec.not_lt.mp hmore
      have hcount : pageCount oldsz ≤ pageCount newsz := by
        have := BitVec.le_def.mp hle
        simp only [pageCount]
        omega
      have holdnat : oldsz.toNat ≤ 4096 * kernbase := by
        have := BitVec.le_def.mp hold
        rw [show (0x80000000 : Word).toNat = 2147483648 from rfl] at this
        simp only [kernbase]
        omega
      have hkern := pageCount_le (BitVec.le_of_lt hnew)
      rw [pgroundup_eq_addr holdnat]
      refine (allocLoop_ends h .refl (fun _ => .inl) habsent (BitVec.le_of_lt hnew) le_rfl hcount ?_).mono
        fun r m' hm' => .inr (.inr ⟨hle, hnew, hm'⟩)
      simp only [kernbase, manyPages] at hkern ⊢
      omega

end Xv6.Paging
