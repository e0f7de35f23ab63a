import Xv6.Paging.Words
import Xv6.Lib.Owner

namespace Xv6.Paging

open Function Lib
open Vm (Page Layout maxPage kernbase phystop)

namespace Mem

variable {m m' : Mem} {pd p q t : Page} {i : Fin 1024} {k : Nat} {w : Word} {v : Fin 1024 → Word}

theorem word_setPage_self : (m.setPage p v).word p = v := update_self _ _ _

theorem word_setPage_of_ne (h : q ≠ p) : (m.setPage p v).word q = m.word q := update_of_ne h _ _

theorem word_setWord_of_ne (h : q ≠ p) : (m.setWord p i w).word q = m.word q := update_of_ne h _ _

theorem word_setWord_self : (m.setWord p i w).word p = update (m.word p) i w :=
  update_self _ _ _

def freed (m : Mem) (p : Page) : Mem :=
  { m.setPage p fun i => if i = 0 then m.freelist else 0x01010101 with freelist := p2v p }

def taken (m : Mem) (p : Page) : Mem := { m with freelist := m.word p 0 }

theorem word_freed_of_ne (h : q ≠ p) : (m.freed p).word q = m.word q := by
  simp only [freed, setPage, update_of_ne h]

theorem word_freed_zero : (m.freed p).word p 0 = m.freelist := by
  simp only [freed, setPage, update_self, if_true]

theorem freed_setWord_comm (h : p ≠ t) : (m.freed p).setWord t i w = (m.setWord t i w).freed p := by
  simp only [freed, setWord, setPage, update_of_ne h.symm, update_comm h]

def table (m : Mem) (pd : Page) (i : Fin 1024) : Option Page :=
  if present (m.word pd i) then some (frame (m.word pd i)) else none

def pte (m : Mem) (pd : Page) (k : Nat) : Word := (m.table pd (Vm.pdx k)).elim 0 fun t => m.word t (Vm.ptx k)

def frameAt (m : Mem) (pd : Page) (k : Nat) : Option Page :=
  if k < kernbase ∧ present (m.pte pd k) then some (frame (m.pte pd k)) else none

theorem pte_of_table (h : m.table pd (Vm.pdx k) = some t) : m.pte pd k = m.word t (Vm.ptx k) := by
  rw [pte, h]
  rfl

theorem pte_of_no_table (h : m.table pd (Vm.pdx k) = none) : m.pte pd k = 0 := by
  rw [pte, h]
  rfl

theorem exists_table (h : present (m.pte pd k) = true) :
    ∃ t, m.table pd (Vm.pdx k) = some t ∧ m.pte pd k = m.word t (Vm.ptx k) := by
  cases ht : m.table pd (Vm.pdx k) with
  | none =>
    rw [pte_of_no_table ht] at h
    cases h
  | some t => exact ⟨t, rfl, pte_of_table ht⟩

theorem frameAt_eq_some : m.frameAt pd k = some p ↔
    k < kernbase ∧ present (m.pte pd k) = true ∧ frame (m.pte pd k) = p := by
  unfold frameAt
  split
  case isTrue h => simp [h.1, h.2]
  case isFalse h =>
    refine ⟨by rintro ⟨⟩, ?_⟩
    rintro ⟨hk, hp, -⟩
    exact absurd ⟨hk, hp⟩ h

theorem frameAt_eq_none (hk : k < kernbase) : m.frameAt pd k = none ↔ present (m.pte pd k) = false := by
  simp [frameAt, hk]

theorem frameAt_congr (h : m'.pte pd k = m.pte pd k) : m'.frameAt pd k = m.frameAt pd k := by
  rw [frameAt, frameAt, h]

theorem table_congr (h : m'.word pd = m.word pd) : m'.table pd = m.table pd := by
  funext i
  rw [table, table, h]

theorem pte_congr (h : m'.word pd = m.word pd) (ht : ∀ i t, m.table pd i = some t → m'.word t = m.word t) :
    m'.pte pd = m.pte pd := by
  funext k
  rw [pte, pte, table_congr h]
  cases htable : m.table pd (Vm.pdx k) with
  | none => rfl
  | some t =>
    change m'.word t (Vm.ptx k) = m.word t (Vm.ptx k)
    rw [ht _ t htable]

end Mem

/-- Where a page of an address space is named.  `hand` is a page that a function has allocated and
not yet put anywhere. -/
inductive Place
  | dir
  | table (i : Fin 1024)
  | page (k : Nat)
  | hand
  deriving DecidableEq

def Mem.num (m : Mem) (pd : Page) (hand : Option Page) : Place → Option Page
  | .dir => some pd
  | .table i => m.table pd i
  | .page k => m.frameAt pd k
  | .hand => hand

theorem Mem.num_dir {m : Mem} {pd : Page} {hand : Option Page} : m.num pd hand .dir = some pd := rfl

theorem Mem.num_hand {m : Mem} {pd : Page} {hand : Option Page} : m.num pd hand .hand = hand := rfl

theorem Mem.num_congr {m m' : Mem} {pd : Page} {hand : Option Page} (h : m'.word pd = m.word pd)
    (ht : ∀ i t, m.table pd i = some t → m'.word t = m.word t) : m'.num pd hand = m.num pd hand := by
  funext P
  cases P with
  | dir => rfl
  | table i => exact congrFun (Mem.table_congr h) i
  | page k => exact Mem.frameAt_congr (congrFun (Mem.pte_congr h ht) k)
  | hand => rfl

def Chain (word : Page → Fin 1024 → Word) : Word → List Page → Prop
  | v, [] => v = 0
  | v, p :: l => v = p2v p ∧ Chain word (word p 0) l

theorem Chain.congr (h : Chain word v l)
    (hword : ∀ p ∈ l, word' p = word p) : Chain word' v l := by
  induction l generalizing v with
  | nil => exact h
  | cons p l ih =>
    refine ⟨h.1, ?_⟩
    rw [hword p List.mem_cons_self]
    exact ih h.2 fun q hq => hword q (List.mem_cons_of_mem p hq)

def Ram (L : Layout) (p : Page) : Prop := L.endPg ≤ p ∧ p < phystop

theorem Ram.lt_maxPage (h : Ram L p) : p < maxPage :=
  lt_trans h.2 (by decide : phystop < maxPage)

theorem Ram.ne_zero (h : Ram L p) : p ≠ 0 := by
  have hend : 256 < L.endPg := lt_of_lt_of_le L.lt_data L.data_le
  exact Nat.ne_of_gt (lt_of_lt_of_le (lt_trans (by decide) hend) h.1)

/-- `l` are the free pages, and `pd` is a page directory: what it and the free list name are pages
that the allocator may have, each named once. -/
structure Space (L : Layout) (m : Mem) (l : List Page) (pd : Page) (hand : Option Page) : Prop where
  chain : Chain m.word m.freelist l
  nodup : l.Nodup
  owns : Owns none (fun o => ∀ p, o = some p → Ram L p) (fun o => ∃ p ∈ l, o = some p) (m.num pd hand)
    fun _ => True

/-- The free pages and those of the address space make up `region`, and outside of it memory is as
in `m₀`. -/
structure Inv (L : Layout) (region : Page → Prop) (m₀ m : Mem) (l : List Page) (pd : Page)
    (hand : Option Page) : Prop extends Space L m l pd hand where
  cover : ∀ p, region p ↔ p ∈ l ∨ ∃ P, m.num pd hand P = some p
  outside : ∀ p, ¬region p → m.word p = m₀.word p

theorem Space.inv
    (h : Space L m l pd hand) :
    Inv L (fun p => p ∈ l ∨ ∃ P, m.num pd hand P = some p) m m l pd hand :=
  ⟨h, fun _ => Iff.rfl, fun _ _ => rfl⟩

namespace Inv

variable {L : Layout} {region : Page → Prop} {m₀ m : Mem} {l : List Page} {pd p q t : Page}
  {hand : Option Page} {P Q : Place} {i : Fin 1024} {k b : Nat} {w : Word} {v : Fin 1024 → Word}

section places

variable (h : Inv L region m₀ m l pd hand)

include h

theorem ram (hP : m.num pd hand P = some p) : Ram L p :=
  h.owns.inArea P trivial (by rw [hP]; exact Option.some_ne_none p) p hP

theorem ram_free (hp : p ∈ l) : Ram L p := h.owns.free (some p) ⟨p, hp, rfl⟩ p rfl

theorem not_free (hP : m.num pd hand P = some p) : p ∉ l := by
  intro hp
  exact h.owns.used P trivial (by rw [hP]; exact Option.some_ne_none p) ⟨p, hp, hP⟩

theorem once (hP : m.num pd hand P = some p) (hQ : m.num pd hand Q = some p) : P = Q :=
  h.owns.once P Q trivial trivial (by rw [hP]; exact Option.some_ne_none p) (hP.trans hQ.symm)

theorem ne (hP : m.num pd hand P = some p) (hQ : m.num pd hand Q = some q) (hne : P ≠ Q) : p ≠ q := by
  rintro rfl
  exact hne (h.once hP hQ)

theorem region_of_place (hP : m.num pd hand P = some p) : region p := (h.cover p).mpr (.inr ⟨P, hP⟩)

theorem region_of_free (hp : p ∈ l) : region p := (h.cover p).mpr (.inl hp)

theorem table_ne_dir (ht : m.table pd i = some t) : t ≠ pd :=
  h.ne (P := .table i) (Q := .dir) ht rfl (by rintro ⟨⟩)

end places

theorem of_word (h : Inv L region m₀ m l pd hand) (hfree : m'.freelist = m.freelist)
    (hl : ∀ p ∈ l, m'.word p = m.word p) (hnum : m'.num pd hand = m.num pd hand)
    (hout : ∀ p, ¬region p → m'.word p = m.word p) : Inv L region m₀ m' l pd hand where
  chain := by
    rw [hfree]
    exact h.chain.congr hl
  nodup := h.nodup
  owns := by
    rw [hnum]
    exact h.owns
  cover := by
    rw [hnum]
    exact h.cover
  outside := fun p hp => (hout p hp).trans (h.outside p hp)

theorem setPage (h : Inv L region m₀ m l pd hand) (hP : m.num pd hand P = some p) (hdir : P ≠ .dir)
    (htable : ∀ i, P ≠ .table i) : Inv L region m₀ (m.setPage p v) l pd hand := by
  have hword : ∀ {Q q}, m.num pd hand Q = some q → Q ≠ P → (m.setPage p v).word q = m.word q := by
    intro Q q hQ hne
    exact Mem.word_setPage_of_ne (h.ne hQ hP hne)
  refine h.of_word rfl (fun q hq => ?_) ?_ fun q hq => ?_
  · refine Mem.word_setPage_of_ne ?_
    rintro rfl
    exact h.not_free hP hq
  · exact Mem.num_congr (hword (Q := .dir) rfl hdir.symm) fun i t ht => hword (Q := .table i) ht (htable i).symm
  · refine Mem.word_setPage_of_ne ?_
    rintro rfl
    exact hq (h.region_of_place hP)

section setPte

variable (h : Inv L region m₀ m l pd hand) (hk : k < maxPage) (ht : m.table pd (Vm.pdx k) = some t)

include h ht

theorem table_setPte : (m.setWord t i w).table pd = m.table pd :=
  Mem.table_congr (Mem.word_setWord_of_ne (h.table_ne_dir ht).symm)

include hk in
theorem pte_setPte (hb : b < maxPage) : (m.setWord t (Vm.ptx k) w).pte pd b = if b = k then w else m.pte pd b := by
  rw [Mem.pte, h.table_setPte ht]
  by_cases hpdx : Vm.pdx b = Vm.pdx k
  · rw [hpdx, ht, Mem.pte_of_table (hpdx ▸ ht)]
    change (m.setWord t (Vm.ptx k) w).word t (Vm.ptx b) = _
    rw [Mem.word_setWord_self]
    by_cases hbk : b = k
    · rw [if_pos hbk, hbk, update_self]
    · rw [if_neg hbk, update_of_ne fun hptx => hbk (Vm.eq_of_pdx_ptx hb hk hpdx hptx)]
  · rw [if_neg fun hbk => hpdx (by rw [hbk]), Mem.pte]
    cases htb : m.table pd (Vm.pdx b) with
    | none => rfl
    | some t' =>
      have hne : t' ≠ t := h.ne (P := .table (Vm.pdx b)) (Q := .table (Vm.pdx k)) htb ht (by simpa using hpdx)
      change (m.setWord t (Vm.ptx k) w).word t' (Vm.ptx b) = m.word t' (Vm.ptx b)
      rw [Mem.word_setWord_of_ne hne]

include hk in
theorem frameAt_setPte_of_ne (hne : b ≠ k) : (m.setWord t (Vm.ptx k) w).frameAt pd b = m.frameAt pd b := by
  by_cases hb : b < maxPage
  · exact Mem.frameAt_congr (by rw [h.pte_setPte hk ht hb, if_neg hne])
  · have hkern : ¬b < kernbase := fun hlt => hb (lt_trans hlt (by decide))
    simp [Mem.frameAt, hkern]

include hk in
theorem num_setPte_of_ne (hand' : Option Page) (hne : P ≠ .page k) (hhand : P ≠ .hand) :
    (m.setWord t (Vm.ptx k) w).num pd hand' P = m.num pd hand P := by
  cases P with
  | dir => rfl
  | table i => exact congrFun (h.table_setPte ht) i
  | page b => exact h.frameAt_setPte_of_ne hk ht fun hbk => hne (by rw [hbk])
  | hand => exact absurd rfl hhand

theorem word_setPte_of_free (hq : q ∈ l) : (m.setWord t i w).word q = m.word q := by
  refine Mem.word_setWord_of_ne ?_
  rintro rfl
  exact h.not_free (P := .table (Vm.pdx k)) ht hq

theorem word_setPte_of_outside (hq : ¬region q) : (m.setWord t i w).word q = m.word q := by
  refine Mem.word_setWord_of_ne ?_
  rintro rfl
  exact hq (h.region_of_place (P := .table (Vm.pdx k)) ht)

theorem word_setPte_of_place (hP : m.num pd hand P = some q) (hne : P ≠ .table (Vm.pdx k)) :
    (m.setWord t i w).word q = m.word q :=
  Mem.word_setWord_of_ne (h.ne (Q := .table (Vm.pdx k)) hP ht hne)

end setPte

theorem setPte (h : Inv L region m₀ m l pd hand) (hk : k < maxPage) (ht : m.table pd (Vm.pdx k) = some t)
    (hsame : k < kernbase → present w = present (m.pte pd k) ∧ frame w = frame (m.pte pd k)) :
    Inv L region m₀ (m.setWord t (Vm.ptx k) w) l pd hand := by
  refine h.of_word rfl (fun q hq => h.word_setPte_of_free ht hq) ?_ fun q hq => h.word_setPte_of_outside ht hq
  funext P
  by_cases hP : P = .page k
  · subst hP
    change (m.setWord t (Vm.ptx k) w).frameAt pd k = m.frameAt pd k
    rw [Mem.frameAt, Mem.frameAt, h.pte_setPte hk ht hk, if_pos rfl]
    by_cases hkern : k < kernbase
    · rw [(hsame hkern).1, (hsame hkern).2]
    · simp [hkern]
  · by_cases hhand : P = .hand
    · rw [hhand]
      rfl
    · exact h.num_setPte_of_ne hk ht hand hP hhand

theorem map (h : Inv L region m₀ m l pd (some p)) (hk : k < kernbase) (ht : m.table pd (Vm.pdx k) = some t)
    (hnone : present (m.pte pd k) = false) (hw : present w = true) (hp : frame w = p) :
    Inv L region m₀ (m.setWord t (Vm.ptx k) w) l pd none := by
  have hmax : k < maxPage := lt_trans hk (by decide)
  have hpage : (m.setWord t (Vm.ptx k) w).num pd none (.page k) = some p := by
    refine Mem.frameAt_eq_some.mpr ⟨hk, ?_⟩
    rw [h.pte_setPte hmax ht hmax, if_pos rfl]
    exact ⟨hw, hp⟩
  have hother : ∀ P, P ≠ .page k → P ≠ .hand →
      (m.setWord t (Vm.ptx k) w).num pd none P = m.num pd (some p) P :=
    fun P hP hhand => h.num_setPte_of_ne hmax ht none hP hhand
  have howns : Owns none (fun o => ∀ p, o = some p → Ram L p) (fun o => ∃ p ∈ l, o = some p) (m.num pd none)
      fun _ => True := by
    refine h.owns.shrink fun P _ hP => ⟨trivial, ?_⟩
    cases P with
    | hand => exact absurd rfl hP
    | dir | table i | page b => rfl
  refine ⟨⟨h.chain.congr fun q hq => h.word_setPte_of_free ht hq, h.nodup, ?_⟩, fun q => ?_, fun q hq => ?_⟩
  · refine howns.give (r := .page k) (fun q hq => Option.some.inj hq ▸ h.ram (P := .hand) rfl) ?_ ?_ hpage ?_
    · rintro ⟨q, hq, heq⟩
      cases heq
      exact h.not_free (P := .hand) rfl hq
    · intro P _ hP heq
      cases P with
      | hand => exact hP rfl
      | dir => cases h.once (P := .dir) (Q := .hand) heq rfl
      | table i => cases h.once (P := .table i) (Q := .hand) heq rfl
      | page b => cases h.once (P := .page b) (Q := .hand) heq rfl
    · intro P _ hP hne
      by_cases hhand : P = .hand
      · rw [hhand] at hne
        exact absurd rfl hne
      · rw [hother P hP hhand]
        cases P with
        | hand => exact absurd rfl hhand
        | dir | table i | page b => rfl
  · rw [h.cover q]
    refine or_congr_right ⟨?_, ?_⟩
    · rintro ⟨P, hP⟩
      by_cases hhand : P = .hand
      · rw [hhand] at hP
        exact ⟨.page k, hpage.trans hP⟩
      · refine ⟨P, ?_⟩
        rw [hother P ?_ hhand, hP]
        rintro rfl
        rw [Mem.num, (Mem.frameAt_eq_none hk).mpr hnone] at hP
        cases hP
    · rintro ⟨P, hP⟩
      by_cases hpk : P = .page k
      · rw [hpk, hpage] at hP
        exact ⟨.hand, hP⟩
      · by_cases hhand : P = .hand
        · rw [hhand] at hP
          cases hP
        · exact ⟨P, by rw [← hother P hpk hhand, hP]⟩
  · rw [h.word_setPte_of_outside ht hq, h.outside q hq]

theorem mem_free_cons : (∃ q ∈ p :: l, o = some q) ↔ (∃ q ∈ l, o = some q) ∨ o = some p := by
  simp only [List.mem_cons]
  constructor
  · rintro ⟨q, rfl | hq, rfl⟩
    · exact .inr rfl
    · exact .inl ⟨q, hq, rfl⟩
  · rintro (⟨q, hq, rfl⟩ | rfl)
    · exact ⟨q, .inr hq, rfl⟩
    · exact ⟨p, .inl rfl, rfl⟩

theorem owns_tail (h : Inv L region m₀ m (p :: l) pd hand) :
    Owns none (fun o => ∀ p, o = some p → Ram L p) (fun o => ∃ p ∈ l, o = some p) (m.num pd hand) (fun _ => True) ∧
      ∀ P, True → m.num pd hand P ≠ none → m.num pd hand P ≠ some p := by
  refine h.owns.take (b := some p) ⟨p, List.mem_cons_self, rfl⟩ fun o => ?_
  rw [mem_free_cons]
  constructor
  · rintro ⟨q, hq, rfl⟩
    refine ⟨.inl ⟨q, hq, rfl⟩, ?_⟩
    rintro ⟨⟩
    exact (List.nodup_cons.mp h.nodup).1 hq
  · rintro ⟨hq | hp, hne⟩
    · exact hq
    · exact absurd hp hne

theorem not_free_head (h : Inv L region m₀ m (p :: l) pd hand) : ¬∃ q ∈ l, some p = some q := by
  rintro ⟨q, hq, heq⟩
  cases heq
  exact (List.nodup_cons.mp h.nodup).1 hq

theorem take (h : Inv L region m₀ m (p :: l) pd none) : Inv L region m₀ (m.taken p) l pd (some p) := by
  obtain ⟨howns, hnew⟩ := h.owns_tail
  refine ⟨⟨h.chain.2, (List.nodup_cons.mp h.nodup).2, ?_⟩, fun q => ?_, h.outside⟩
  · refine howns.give (r := .hand) (fun q hq => Option.some.inj hq ▸ h.ram_free List.mem_cons_self)
      h.not_free_head hnew rfl ?_
    intro P _ hP _
    cases P with
    | hand => exact absurd rfl hP
    | dir | table i | page b => rfl
  · rw [h.cover q, List.mem_cons]
    constructor
    · rintro ((rfl | hq) | ⟨P, hP⟩)
      · exact .inr ⟨.hand, rfl⟩
      · exact .inl hq
      · cases P with
        | hand => cases hP
        | dir => exact .inr ⟨.dir, hP⟩
        | table i => exact .inr ⟨.table i, hP⟩
        | page b => exact .inr ⟨.page b, hP⟩
    · rintro (hq | ⟨P, hP⟩)
      · exact .inl (.inr hq)
      · cases P with
        | hand =>
          cases hP
          exact .inl (.inl rfl)
        | dir => exact .inr ⟨.dir, hP⟩
        | table i => exact .inr ⟨.table i, hP⟩
        | page b => exact .inr ⟨.page b, hP⟩

theorem drop (h : Inv L region m₀ m l pd (some p)) : Inv L region m₀ (m.freed p) (p :: l) pd none := by
  have hnum : ∀ P, P ≠ .hand → (m.freed p).num pd none P = m.num pd (some p) P := by
    intro P hP
    have hcongr : (m.freed p).num pd none = m.num pd none := by
      refine Mem.num_congr (Mem.word_freed_of_ne ?_) fun i t ht => Mem.word_freed_of_ne ?_
      · exact h.ne (P := .dir) (Q := .hand) rfl rfl (by rintro ⟨⟩)
      · exact h.ne (P := .table i) (Q := .hand) ht rfl (by rintro ⟨⟩)
    rw [hcongr]
    cases P with
    | hand => exact absurd rfl hP
    | dir | table i | page b => rfl
  have hfree := h.not_free (P := .hand) rfl
  refine ⟨⟨⟨rfl, ?_⟩, List.nodup_cons.mpr ⟨hfree, h.nodup⟩, ?_⟩, fun q => ?_, fun q hq => ?_⟩
  · rw [Mem.word_freed_zero]
    exact h.chain.congr fun q hq => Mem.word_freed_of_ne fun heq => hfree (heq ▸ hq)
  · refine (h.owns.release (r := .hand) (T := (· ≠ .hand)) trivial (Option.some_ne_none p) (fun o => mem_free_cons)
      fun P hP => ⟨trivial, hP⟩).shrink fun P _ hP => ?_
    have hhand : P ≠ .hand := by
      rintro rfl
      exact hP rfl
    exact ⟨hhand, hnum P hhand⟩
  · rw [h.cover q, List.mem_cons, or_assoc, or_left_comm]
    refine or_congr_right ⟨?_, ?_⟩
    · rintro ⟨P, hP⟩
      by_cases hhand : P = .hand
      · rw [hhand] at hP
        cases hP
        exact .inl rfl
      · exact .inr ⟨P, by rw [hnum P hhand, hP]⟩
    · rintro (rfl | ⟨P, hP⟩)
      · exact ⟨.hand, rfl⟩
      · refine ⟨P, ?_⟩
        rw [← hnum P ?_, hP]
        rintro rfl
        cases hP
  · rw [Mem.word_freed_of_ne, h.outside q hq]
    rintro rfl
    exact hq (h.region_of_place (P := .hand) rfl)

theorem unmap (h : Inv L region m₀ m l pd hand) (ht : m.table pd (Vm.pdx k) = some t)
    (hp : m.frameAt pd k = some p) : Inv L region m₀ ((m.setWord t (Vm.ptx k) 0).freed p) (p :: l) pd hand := by
  have hk : k < maxPage := lt_trans (Mem.frameAt_eq_some.mp hp).1 (by decide)
  have hcongr : ((m.setWord t (Vm.ptx k) 0).freed p).num pd hand = (m.setWord t (Vm.ptx k) 0).num pd hand := by
    refine Mem.num_congr (Mem.word_freed_of_ne ?_) fun i t' ht' => Mem.word_freed_of_ne ?_
    · exact h.ne (P := .dir) (Q := .page k) rfl hp (by rintro ⟨⟩)
    · rw [h.table_setPte ht] at ht'
      exact h.ne (P := .table i) (Q := .page k) ht' hp (by rintro ⟨⟩)
  have hnone : (m.setWord t (Vm.ptx k) 0).num pd hand (.page k) = none := by
    refine (Mem.frameAt_eq_none (Mem.frameAt_eq_some.mp hp).1).mpr ?_
    rw [h.pte_setPte hk ht hk, if_pos rfl]
    rfl
  have hnum : ∀ P, P ≠ .page k → (m.setWord t (Vm.ptx k) 0).num pd hand P = m.num pd hand P := by
    intro P hP
    by_cases hhand : P = .hand
    · rw [hhand]
      rfl
    · exact h.num_setPte_of_ne hk ht hand hP hhand
  have hfree := h.not_free (P := .page k) hp
  have hword : ∀ q ∈ l, ((m.setWord t (Vm.ptx k) 0).freed p).word q = m.word q := by
    intro q hq
    have hne : q ≠ p := by
      rintro rfl
      exact hfree hq
    rw [Mem.word_freed_of_ne hne, h.word_setPte_of_free ht hq]
  refine ⟨⟨⟨rfl, ?_⟩, List.nodup_cons.mpr ⟨hfree, h.nodup⟩, ?_⟩, fun q => ?_, fun q hq => ?_⟩
  · rw [Mem.word_freed_zero]
    exact h.chain.congr hword
  · rw [hcongr]
    refine (h.owns.release (r := .page k) (T := (· ≠ .page k)) trivial (by rw [Mem.num, hp]; exact Option.some_ne_none p)
      (fun o => by rw [mem_free_cons, Mem.num, hp]) fun P hP => ⟨trivial, hP⟩).shrink fun P _ hP => ?_
    have hpk : P ≠ .page k := by
      rintro rfl
      exact hP hnone
    exact ⟨hpk, hnum P hpk⟩
  · rw [hcongr, h.cover q, List.mem_cons, or_assoc, or_left_comm]
    refine or_congr_right ⟨?_, ?_⟩
    · rintro ⟨P, hP⟩
      by_cases hpk : P = .page k
      · rw [hpk] at hP
        exact .inl (Option.some.inj (hP.symm.trans hp))
      · exact .inr ⟨P, by rw [hnum P hpk, hP]⟩
    · rintro (rfl | ⟨P, hP⟩)
      · exact ⟨.page k, hp⟩
      · refine ⟨P, ?_⟩
        rw [← hnum P ?_, hP]
        rintro rfl
        rw [hnone] at hP
        cases hP
  · rw [Mem.word_freed_of_ne, h.word_setPte_of_outside ht hq, h.outside q hq]
    rintro rfl
    exact hq (h.region_of_place (P := .page k) hp)

section unmap

variable (h : Inv L region m₀ m l pd hand) (ht : m.table pd (Vm.pdx k) = some t)
  (hp : m.frameAt pd k = some p)

include h ht hp

theorem word_unmap_of_place (hP : m.num pd hand P = some q) (hpage : P ≠ .page k) (htable : P ≠ .table (Vm.pdx k)) :
    ((m.setWord t (Vm.ptx k) 0).freed p).word q = m.word q := by
  rw [Mem.word_freed_of_ne (h.ne (Q := .page k) hP hp hpage), h.word_setPte_of_place ht hP htable]

theorem table_unmap : ((m.setWord t (Vm.ptx k) 0).freed p).table pd = m.table pd := by
  refine Mem.table_congr ?_
  exact h.word_unmap_of_place ht hp (P := .dir) rfl (by rintro ⟨⟩) (by rintro ⟨⟩)

theorem pte_unmap (hb : b < maxPage) :
    ((m.setWord t (Vm.ptx k) 0).freed p).pte pd b = if b = k then 0 else m.pte pd b := by
  have hk : k < maxPage := lt_trans (Mem.frameAt_eq_some.mp hp).1 (by decide)
  rw [← h.pte_setPte hk ht hb]
  refine congrFun (Mem.pte_congr (Mem.word_freed_of_ne ?_) fun i t' ht' => Mem.word_freed_of_ne ?_) b
  · exact h.ne (P := .dir) (Q := .page k) rfl hp (by rintro ⟨⟩)
  · rw [h.table_setPte ht] at ht'
    exact h.ne (P := .table i) (Q := .page k) ht' hp (by rintro ⟨⟩)

end unmap

end Inv

namespace Mem

def addTable (m : Mem) (pd p : Page) (i : Fin 1024) : Mem :=
  ((m.taken p).setPage p fun _ => 0).setWord pd i (addr p ||| 7)

variable {m : Mem} {pd p q : Page} {i j : Fin 1024} {k : Nat}

theorem word_addTable_of_ne (hpd : q ≠ pd) (hp : q ≠ p) : (m.addTable pd p i).word q = m.word q := by
  rw [addTable, word_setWord_of_ne hpd, word_setPage_of_ne hp]
  rfl

theorem word_addTable_self (h : p ≠ pd) : (m.addTable pd p i).word p = fun _ => 0 := by
  rw [addTable, word_setWord_of_ne h, word_setPage_self]

theorem table_addTable (h : p ≠ pd) (hp : p < maxPage) :
    (m.addTable pd p i).table pd j = if j = i then some p else m.table pd j := by
  have hword : (m.addTable pd p i).word pd = update (m.word pd) i (addr p ||| 7) := by
    rw [addTable, word_setWord_self, word_setPage_of_ne h.symm]
    rfl
  rw [table, hword]
  by_cases hj : j = i
  · rw [hj, update_self, if_pos rfl, present_pde, if_pos rfl, frame_pde hp]
  · rw [update_of_ne hj, if_neg hj]
    rfl

theorem pte_addTable (h : p ≠ pd) (hp : p < maxPage) (hnone : m.table pd i = none)
    (hp' : ∀ j, m.table pd j ≠ some p) (hdir : ∀ j, m.table pd j ≠ some pd) :
    (m.addTable pd p i).pte pd = m.pte pd := by
  funext k
  rw [pte, table_addTable h hp, pte]
  by_cases hk : Vm.pdx k = i
  · rw [if_pos hk, hk, hnone]
    change (m.addTable pd p i).word p (Vm.ptx k) = 0
    rw [word_addTable_self h]
  · rw [if_neg hk]
    cases ht : m.table pd (Vm.pdx k) with
    | none => rfl
    | some t =>
      change (m.addTable pd p i).word t (Vm.ptx k) = m.word t (Vm.ptx k)
      rw [word_addTable_of_ne]
      · rintro rfl
        exact hdir _ ht
      · rintro rfl
        exact hp' _ ht

end Mem

namespace Inv

section addTable

variable (h : Inv L region m₀ m (p :: l) pd hand)

include h

theorem head_ne_dir : p ≠ pd := by
  rintro rfl
  exact h.not_free (P := .dir) rfl List.mem_cons_self

theorem pte_addTable (hnone : m.table pd i = none) : (m.addTable pd p i).pte pd = m.pte pd := by
  refine Mem.pte_addTable h.head_ne_dir (h.ram_free List.mem_cons_self).lt_maxPage hnone (fun j hj => ?_) fun j hj => ?_
  · exact h.not_free (P := .table j) hj List.mem_cons_self
  · exact h.table_ne_dir hj rfl

theorem num_addTable (hnone : m.table pd i = none) (hP : P ≠ .table i) :
    (m.addTable pd p i).num pd hand P = m.num pd hand P := by
  cases P with
  | dir => rfl
  | table j =>
    refine (Mem.table_addTable h.head_ne_dir (h.ram_free List.mem_cons_self).lt_maxPage).trans (if_neg ?_)
    rintro rfl
    exact hP rfl
  | page k => exact Mem.frameAt_congr (congrFun (h.pte_addTable hnone) k)
  | hand => rfl

theorem addTable (hnone : m.table pd i = none) : Inv L region m₀ (m.addTable pd p i) l pd hand := by
  have htable : (m.addTable pd p i).num pd hand (.table i) = some p :=
    (Mem.table_addTable h.head_ne_dir (h.ram_free List.mem_cons_self).lt_maxPage).trans (if_pos rfl)
  obtain ⟨howns, hnew⟩ := h.owns_tail
  obtain ⟨hp, hnodup⟩ := List.nodup_cons.mp h.nodup
  refine ⟨⟨h.chain.2.congr fun q hq => ?_, hnodup, ?_⟩, fun q => ?_, fun q hq => ?_⟩
  · refine Mem.word_addTable_of_ne ?_ ?_
    · rintro rfl
      exact h.not_free (P := .dir) rfl (List.mem_cons_of_mem p hq)
    · rintro rfl
      exact hp hq
  · exact howns.give (r := .table i) (fun q hq => Option.some.inj hq ▸ h.ram_free List.mem_cons_self)
      h.not_free_head hnew htable fun P _ hP _ => h.num_addTable hnone hP
  · rw [h.cover q, List.mem_cons]
    constructor
    · rintro ((rfl | hq) | ⟨P, hP⟩)
      · exact .inr ⟨.table i, htable⟩
      · exact .inl hq
      · refine .inr ⟨P, ?_⟩
        rw [h.num_addTable hnone, hP]
        rintro rfl
        rw [Mem.num, hnone] at hP
        cases hP
    · rintro (hq | ⟨P, hP⟩)
      · exact .inl (.inr hq)
      · by_cases hPi : P = .table i
        · rw [hPi, htable] at hP
          cases hP
          exact .inl (.inl rfl)
        · exact .inr ⟨P, by rw [← h.num_addTable hnone hPi, hP]⟩
  · rw [Mem.word_addTable_of_ne, h.outside q hq]
    · rintro rfl
      exact hq (h.region_of_place (P := .dir) rfl)
    · rintro rfl
      exact hq (h.region_of_free List.mem_cons_self)

end addTable

end Inv

end Xv6.Paging
