import Xv6.Paging.Walk

namespace Xv6.Paging

open Lib Prog
open Vm (Page Layout maxPage kernbase phystop pgroundup)

variable {L : Layout} {region : Page → Prop} {m₀ m m' : Mem} {l : List Page} {pd p q t : Page}
  {hand : Option Page} {k lo hi : Nat} {oldsz newsz : Word}

def Mem.frames (m : Mem) (pd : Page) (lo hi : Nat) : List Page :=
  (List.range' lo (hi - lo)).filterMap (m.frameAt pd)

theorem Mem.frames_nil (h : hi ≤ lo) : m.frames pd lo hi = [] := by
  rw [frames, Nat.sub_eq_zero_of_le h]
  rfl

theorem Mem.frames_of_lt (h : lo < hi) :
    m.frames pd lo hi = (m.frameAt pd lo).toList ++ m.frames pd (lo + 1) hi := by
  have hlen : hi - lo = hi - (lo + 1) + 1 := by omega
  rw [frames, hlen, List.range'_succ, List.filterMap_cons, frames]
  cases m.frameAt pd lo with
  | none => rfl
  | some p => rfl

theorem Mem.frames_congr (h : ∀ b, lo ≤ b → b < hi → m'.frameAt pd b = m.frameAt pd b) :
    m'.frames pd lo hi = m.frames pd lo hi := by
  refine List.filterMap_congr fun b hb => h b ?_ ?_
  · exact List.left_le_of_mem_range' hb
  · have := List.mem_range'_1.mp hb
    omega

theorem Mem.frames_skip (h : ∀ b, lo ≤ b → b < k → m.frameAt pd b = none) (hle : lo ≤ k) :
    m.frames pd lo hi = m.frames pd k hi := by
  induction k, hle using Nat.le_induction with
  | base => rfl
  | succ k hle ih =>
    rw [ih fun b hb hbk => h b hb (by omega)]
    by_cases hk : k < hi
    · rw [Mem.frames_of_lt hk, h k hle (by omega)]
      rfl
    · rw [Mem.frames_nil (by omega), Mem.frames_nil (by omega)]

structure Unmapped (L : Layout) (region : Page → Prop) (m₀ m : Mem) (l : List Page) (pd : Page)
    (hand : Option Page) (lo hi : Nat) (m' : Mem) : Prop where
  inv : Inv L region m₀ m' ((m.frames pd lo hi).reverse ++ l) pd hand
  pte : ∀ b < maxPage, m'.pte pd b = if (lo ≤ b ∧ b < hi) ∧ present (m.pte pd b) then 0 else m.pte pd b
  table : m'.table pd = m.table pd
  kept : ∀ P q, (∀ i, P ≠ .table i) → (∀ b, P = .page b → b < lo ∨ hi ≤ b) → m.num pd hand P = some q →
    m'.word q = m.word q

namespace Unmapped

theorem refl (h : Inv L region m₀ m l pd hand) (hle : hi ≤ lo) : Unmapped L region m₀ m l pd hand lo hi m where
  inv := by
    rw [Mem.frames_nil hle]
    exact h
  pte := fun b _ => by rw [if_neg (by omega)]
  table := rfl
  kept := fun _ _ _ _ _ => rfl

theorem skip (h : Unmapped L region m₀ m l pd hand k hi m') (hle : lo ≤ k) (hk : k ≤ kernbase)
    (hnone : ∀ b, lo ≤ b → b < k → present (m.pte pd b) = false) : Unmapped L region m₀ m l pd hand lo hi m' where
  inv := by
    rw [Mem.frames_skip (k := k) (fun b hb hbk => ?_) hle]
    · exact h.inv
    · exact (Mem.frameAt_eq_none (by omega)).mpr (hnone b hb hbk)
  pte := fun b hb => by
    rw [h.pte b hb]
    by_cases hbk : lo ≤ b ∧ b < k
    · rw [hnone b hbk.1 hbk.2]
      simp
    · have hiff : (k ≤ b ∧ b < hi) ↔ (lo ≤ b ∧ b < hi) := by omega
      simp only [hiff]
  table := h.table
  kept := fun P q htable hpage hq => h.kept P q htable (fun b hb => by have := hpage b hb; omega) hq

theorem cons (h : Inv L region m₀ m l pd hand) (ht : m.table pd (Vm.pdx k) = some t) (hp : m.frameAt pd k = some p)
    (hk : k < hi)
    (hrest : Unmapped L region m₀ ((m.setWord t (Vm.ptx k) 0).freed p) (p :: l) pd hand (k + 1) hi m') :
    Unmapped L region m₀ m l pd hand k hi m' where
  inv := by
    have hframes : ((m.setWord t (Vm.ptx k) 0).freed p).frames pd (k + 1) hi = m.frames pd (k + 1) hi := by
      refine Mem.frames_congr fun b hb _ => ?_
      by_cases hbk : b < maxPage
      · exact Mem.frameAt_congr (by rw [h.pte_unmap ht hp hbk, if_neg (by omega)])
      · have hkern : ¬b < kernbase := fun hlt => hbk (lt_trans hlt (by decide))
        simp [Mem.frameAt, hkern]
    have hinv := hrest.inv
    rw [hframes] at hinv
    rw [Mem.frames_of_lt hk, hp, List.reverse_append]
    simpa using hinv
  pte := fun b hb => by
    have hpresent := (Mem.frameAt_eq_some.mp hp).2.1
    rw [hrest.pte b hb, h.pte_unmap ht hp hb]
    by_cases hbk : b = k
    · subst hbk
      rw [if_pos rfl, if_neg (by omega), if_pos ⟨⟨le_rfl, hk⟩, hpresent⟩]
    · have hiff : (k + 1 ≤ b ∧ b < hi) ↔ (k ≤ b ∧ b < hi) := by omega
      simp only [if_neg hbk, hiff]
  table := hrest.table.trans (h.table_unmap ht hp)
  kept := fun P q htable hpage hq => by
    have hPk : P ≠ .page k := by
      intro hP
      have := hpage k hP
      omega
    have hnum : ((m.setWord t (Vm.ptx k) 0).freed p).num pd hand P = some q := by
      rw [← hq]
      cases P with
      | dir => rw [Mem.num_dir, Mem.num_dir]
      | table i => exact absurd rfl (htable i)
      | hand => rw [Mem.num_hand, Mem.num_hand]
      | page b =>
        have hb := Mem.frameAt_eq_some.mp hq
        have hmax : b < maxPage := lt_trans hb.1 (by decide)
        refine Mem.frameAt_congr ?_
        rw [h.pte_unmap ht hp hmax, if_neg]
        rintro rfl
        exact hPk rfl
    rw [hrest.kept P q htable (fun b hb => by have := hpage b hb; omega) hnum]
    exact h.word_unmap_of_place ht hp hq hPk (htable _)

end Unmapped

def pageCount (sz : Word) : Nat := (sz.toNat + 4095) / 4096

theorem lt_pageCount : k < pageCount sz ↔ 4096 * k < sz.toNat := by
  rw [pageCount]
  omega

theorem pageCount_le (h : sz ≤ 0x80000000) : pageCount sz ≤ kernbase := by
  have hnat := BitVec.le_def.mp h
  rw [show (0x80000000 : Word).toNat = 2147483648 from rfl] at hnat
  simp only [pageCount, kernbase]
  omega

theorem deallocLoop_ends (h : Inv L region m₀ m l pd hand) (hold : pageCount oldsz ≤ kernbase)
    (hk : k ≤ kernbase) (hfuel : pageCount oldsz - k < fuel) :
    Ends (deallocLoop L pd oldsz fuel (addr k)) m fun _ m' =>
      Unmapped L region m₀ m l pd hand k (pageCount oldsz) m' := by
  induction fuel generalizing m l k with
  | zero => omega
  | succ fuel ih =>
    have hmax : k < maxPage := lt_of_le_of_lt hk (by decide)
    unfold deallocLoop
    by_cases hlt : k < pageCount oldsz
    · rw [if_pos ((addr_lt hmax).mpr (lt_pageCount.mp hlt))]
      refine walkpgdir_bind (h.ram (P := .dir) rfl).2 hmax ?_
      cases ht : m.table pd (Vm.pdx k) with
      | none =>
        simp only [Option.map_none, pgaddr_pdx hmax]
        have hnext : (k / 1024 + 1) * 1024 ≤ kernbase := by
          have : k < kernbase := lt_of_lt_of_le hlt hold
          simp only [kernbase] at this ⊢
          omega
        refine (ih h hnext (by omega)).mono fun _ m' hm' => hm'.skip (by omega) hnext fun b hb hb' => ?_
        have hpdx : Vm.pdx b = Vm.pdx k := by
          apply Fin.ext
          simp only [Vm.pdx, Fin.ofNat]
          omega
        rw [Mem.pte_of_no_table (hpdx ▸ ht)]
        rfl
      | some t =>
        simp only [Option.map_some]
        refine load_bind (h.ram (P := .table (Vm.pdx k)) ht).2 ?_
        rw [← Mem.pte_of_table ht]
        by_cases hpresent : present (m.pte pd k) = true
        · have hp : m.frameAt pd k = some (frame (m.pte pd k)) :=
            Mem.frameAt_eq_some.mpr ⟨lt_of_lt_of_le hlt hold, hpresent, rfl⟩
          have hram := h.ram (P := .page k) hp
          rw [if_pos hpresent, if_neg hram.ne_zero]
          refine kfree_bind hram (store_bind (h.ram (P := .table (Vm.pdx k)) ht).2 ?_)
          rw [Mem.freed_setWord_comm (h.ne (P := .page k) (Q := .table (Vm.pdx k)) hp ht (by rintro ⟨⟩)), addr_add]
          exact (ih (h.unmap ht hp) (by omega) (by omega)).mono fun _ m' hm' => .cons h ht hp hlt hm'
        · rw [if_neg hpresent, addr_add]
          refine (ih h (by omega) (by omega)).mono fun _ m' hm' => hm'.skip (by omega) (by omega) fun b hb hb' => ?_
          obtain rfl : b = k := by omega
          exact Bool.eq_false_of_not_eq_true hpresent
    · rw [if_neg fun hlt' => hlt (lt_pageCount.mpr ((addr_lt hmax).mp hlt'))]
      exact .pure (.refl h (by omega))

theorem deallocuvm_ends (h : Inv L region m₀ m l pd hand) (hold : oldsz ≤ 0x80000000) :
    Ends (deallocuvm L pd oldsz newsz) m fun r m' => r = (if newsz < oldsz then newsz else oldsz) ∧
      Unmapped L region m₀ m l pd hand (pageCount newsz) (pageCount oldsz) m' := by
  have hcount := pageCount_le hold
  unfold deallocuvm
  by_cases hle : oldsz ≤ newsz
  · have hge : pageCount oldsz ≤ pageCount newsz := by
      have := BitVec.le_def.mp hle
      simp only [pageCount]
      omega
    rw [if_pos hle, if_neg (BitVec.not_lt.mpr hle)]
    exact .pure ⟨rfl, .refl h hge⟩
  · have hlt : newsz < oldsz := BitVec.not_le.mp hle
    have hnew := pageCount_le (BitVec.le_def.mpr (le_trans (BitVec.lt_def.mp hlt).le (BitVec.le_def.mp hold)))
    have hnat : newsz.toNat ≤ 4096 * kernbase := by
      simp only [pageCount, kernbase] at hnew ⊢
      omega
    rw [if_neg hle, if_pos hlt, pgroundup_eq_addr hnat]
    refine (deallocLoop_ends h hcount hnew ?_).bind fun _ m' hm' => .pure ⟨rfl, hm'⟩
    simp only [kernbase, manyPages] at hcount ⊢
    omega

theorem deallocuvm_discard (h : Inv L region m₀ m l pd hand) (hold : oldsz ≤ 0x80000000) :
    Ends (discard (deallocuvm L pd oldsz newsz)) m fun _ m' =>
      Unmapped L region m₀ m l pd hand (pageCount newsz) (pageCount oldsz) m' :=
  Finishes.discard ((deallocuvm_ends h hold).mono fun _ _ hm' => hm'.2)

theorem mem_frames : p ∈ m.frames pd lo hi ↔ ∃ b, (lo ≤ b ∧ b < hi) ∧ m.frameAt pd b = some p := by
  simp only [Mem.frames, List.mem_filterMap, List.mem_range'_1]
  refine exists_congr fun b => and_congr_left fun _ => ?_
  omega

theorem deallocuvm_frees_range (h : Space L m l pd none) (hold : oldsz ≤ 0x80000000) :
    ∃ m', deallocuvm L pd oldsz newsz m = .ok (if newsz < oldsz then newsz else oldsz, m') ∧
      Space L m' ((m.frames pd (pageCount newsz) (pageCount oldsz)).reverse ++ l) pd none ∧
      (∀ k < maxPage, m'.pte pd k =
        if (newsz.toNat ≤ 4096 * k ∧ 4096 * k < oldsz.toNat) ∧ present (m.pte pd k) then 0 else m.pte pd k) ∧
      m'.word pd = m.word pd ∧
      ∀ q, q ∉ m.frames pd (pageCount newsz) (pageCount oldsz) → q ∉ l → (∀ i, m.table pd i ≠ some q) →
        m'.word q = m.word q := by
  have hends : Ends (deallocuvm L pd oldsz newsz) m _ := deallocuvm_ends h.inv hold
  obtain ⟨r, m', hrun, rfl, hm'⟩ := hends.exists_ok fun _ => id
  have hdir : m'.word pd = m.word pd := hm'.kept .dir pd (by rintro i ⟨⟩) (by rintro b ⟨⟩) rfl
  refine ⟨m', hrun, hm'.inv.toSpace, fun k hk => ?_, hdir, fun q hq hfree htable => ?_⟩
  · have hrange : (pageCount newsz ≤ k ∧ k < pageCount oldsz) ↔ (newsz.toNat ≤ 4096 * k ∧ 4096 * k < oldsz.toNat) := by
      simp only [pageCount]
      omega
    simp only [hm'.pte k hk, hrange]
  · by_cases hnamed : ∃ P, m.num pd none P = some q
    · obtain ⟨P, hP⟩ := hnamed
      refine hm'.kept P q ?_ ?_ hP
      · rintro i rfl
        exact htable i hP
      · rintro b rfl
        have hb := mt (fun hb => mem_frames.mpr ⟨b, hb, hP⟩) hq
        omega
    · exact hm'.inv.outside q fun hregion => hregion.elim hfree hnamed

structure AllFree (region : Page → Prop) (m₀ m : Mem) (l : List Page) : Prop where
  chain : Chain m.word m.freelist l
  nodup : l.Nodup
  cover : ∀ p, region p ↔ p ∈ l
  outside : ∀ p, ¬region p → m.word p = m₀.word p

structure Freeing (L : Layout) (region : Page → Prop) (m₀ m : Mem) (l : List Page) (pd : Page)
    (num : Place → Option Page) (S : Place → Prop) : Prop where
  chain : Chain m.word m.freelist l
  nodup : l.Nodup
  owns : Owns none (fun o => ∀ p, o = some p → Ram L p) (fun o => ∃ p ∈ l, o = some p) num S
  cover : ∀ p, region p ↔ p ∈ l ∨ ∃ P, S P ∧ num P = some p
  outside : ∀ p, ¬region p → m.word p = m₀.word p

namespace Freeing

theorem ram (h : Freeing L region m₀ m l pd num S) (hP : S P) (hp : num P = some p) : Ram L p :=
  h.owns.inArea P hP (by rw [hp]; exact Option.some_ne_none p) p hp

theorem not_free (h : Freeing L region m₀ m l pd num S) (hP : S P) (hp : num P = some p) : p ∉ l :=
  fun hl => h.owns.used P hP (by rw [hp]; exact Option.some_ne_none p) ⟨p, hl, hp⟩

theorem free (h : Freeing L region m₀ m l pd num S) (hP : S P) (hp : num P = some p)
    (hS : ∀ Q, T Q ↔ S Q ∧ Q ≠ P) : Freeing L region m₀ (m.freed p) (p :: l) pd num T where
  chain := by
    refine ⟨rfl, ?_⟩
    rw [Mem.word_freed_zero]
    refine h.chain.congr fun q hq => Mem.word_freed_of_ne ?_
    rintro rfl
    exact h.not_free hP hp hq
  nodup := List.nodup_cons.mpr ⟨h.not_free hP hp, h.nodup⟩
  owns := by
    refine h.owns.release hP (by rw [hp]; exact Option.some_ne_none p) (fun o => ?_) fun Q hQ => (hS Q).mp hQ
    rw [Inv.mem_free_cons, hp]
  cover := fun q => by
    rw [h.cover q, List.mem_cons, or_assoc, or_left_comm]
    refine or_congr_right ⟨?_, ?_⟩
    · rintro ⟨Q, hQ, hq⟩
      by_cases hQP : Q = P
      · subst hQP
        exact .inl (Option.some.inj (hq.symm.trans hp))
      · exact .inr ⟨Q, (hS Q).mpr ⟨hQ, hQP⟩, hq⟩
    · rintro (rfl | ⟨Q, hQ, hq⟩)
      · exact ⟨P, hP, hp⟩
      · exact ⟨Q, ((hS Q).mp hQ).1, hq⟩
  outside := fun q hq => by
    rw [Mem.word_freed_of_ne, h.outside q hq]
    rintro rfl
    exact hq ((h.cover q).mpr (.inr ⟨P, hP, hp⟩))

theorem skip (h : Freeing L region m₀ m l pd num S) (hp : num P = none) (hS : ∀ Q, T Q ↔ S Q ∧ Q ≠ P) :
    Freeing L region m₀ m l pd num T where
  chain := h.chain
  nodup := h.nodup
  owns := h.owns.shrink fun Q hQ _ => ⟨((hS Q).mp hQ).1, rfl⟩
  cover := fun q => by
    rw [h.cover q]
    refine or_congr_right (exists_congr fun Q => and_congr_left fun hq => ?_)
    rw [hS Q, iff_self_and]
    rintro - rfl
    rw [hp] at hq
    cases hq
  outside := h.outside

end Freeing

def Left (is : List (Fin 1024)) (P : Place) : Prop := P = .dir ∨ ∃ i ∈ is, P = .table i

theorem left_cons (hi : i ∉ is) (Q : Place) :
    Left is Q ↔ Left (i :: is) Q ∧ Q ≠ .table i := by
  simp only [Left, List.mem_cons]
  constructor
  · rintro (rfl | ⟨j, hj, rfl⟩)
    · exact ⟨.inl rfl, by rintro ⟨⟩⟩
    · refine ⟨.inr ⟨j, .inr hj, rfl⟩, ?_⟩
      rintro ⟨⟩
      exact hi hj
  · rintro ⟨rfl | ⟨j, rfl | hj, rfl⟩, hne⟩
    · exact .inl rfl
    · exact absurd rfl hne
    · exact .inr ⟨j, hj, rfl⟩

theorem freeTables_ends {m₁ : Mem} {is : List (Fin 1024)} (his : is.Nodup)
    (h : Freeing L region m₀ m l pd (m₁.num pd none) (Left is)) (hdir : m.word pd = m₁.word pd) :
    Ends (freeTables L pd is) m fun _ m' => ∃ l', Freeing L region m₀ m' l' pd (m₁.num pd none) (Left []) := by
  induction is generalizing m l with
  | nil => exact .pure ⟨l, h⟩
  | cons i is ih =>
    obtain ⟨hi, his⟩ := List.nodup_cons.mp his
    have hpd := (h.ram (P := .dir) (.inl rfl) rfl).2
    unfold freeTables
    refine load_bind hpd ?_
    rw [hdir]
    by_cases hp : present (m₁.word pd i) = true
    · have ht : m₁.num pd none (.table i) = some (frame (m₁.word pd i)) := if_pos hp
      have hS : Left (i :: is) (.table i) := .inr ⟨i, List.mem_cons_self, rfl⟩
      rw [if_pos hp]
      refine kfree_bind (h.ram hS ht) (ih his (h.free hS ht (left_cons hi)) ?_)
      rw [Mem.word_freed_of_ne, hdir]
      intro heq
      have := h.owns.once .dir (.table i) (.inl rfl) hS (Option.some_ne_none pd) (by rw [ht, ← heq]; rfl)
      cases this
    · have ht : m₁.num pd none (.table i) = none := if_neg hp
      rw [if_neg hp]
      exact ih his (h.skip ht (left_cons hi)) hdir

theorem freevm_ends (h : Inv L region m₀ m l pd none) :
    Ends (freevm L pd) m fun _ m' => ∃ l', AllFree region m₀ m' l' := by
  have hends : Ends (discard (deallocuvm L pd 0x80000000 0)) m _ := deallocuvm_discard h (by decide)
  refine hends.bind fun _ m₁ hm₁ => ?_
  have hnone : ∀ k, m₁.frameAt pd k = none := by
    intro k
    by_cases hk : k < kernbase
    · rw [Mem.frameAt_eq_none hk, hm₁.pte k (lt_trans hk (by decide))]
      by_cases hp : present (m.pte pd k) = true
      · have hrange : pageCount 0 ≤ k ∧ k < pageCount 0x80000000 := by
          rw [show pageCount 0 = 0 from rfl, show pageCount 0x80000000 = kernbase from rfl]
          exact ⟨Nat.zero_le k, hk⟩
        rw [if_pos ⟨hrange, hp⟩]
        rfl
      · rw [if_neg fun h => hp h.2]
        exact Bool.eq_false_of_not_eq_true hp
    · simp [Mem.frameAt, hk]
  have hleft : ∀ P p, m₁.num pd none P = some p → Left (List.finRange 1024) P := by
    rintro (_ | i | k | _) p hP
    · exact .inl rfl
    · exact .inr ⟨i, List.mem_finRange i, rfl⟩
    · rw [Mem.num, hnone k] at hP
      cases hP
    · cases hP
  have hfreeing : Freeing L region m₀ m₁ ((m.frames pd (pageCount 0) (pageCount 0x80000000)).reverse ++ l) pd
      (m₁.num pd none) (Left (List.finRange 1024)) := by
    refine ⟨hm₁.inv.chain, hm₁.inv.nodup, hm₁.inv.owns.shrink fun P _ _ => ⟨trivial, rfl⟩, fun p => ?_, hm₁.inv.outside⟩
    rw [hm₁.inv.cover p]
    refine or_congr_right (exists_congr fun P => ?_)
    exact ⟨fun hP => ⟨hleft P p hP, hP⟩, fun hP => hP.2⟩
  have hnodup := List.nodup_finRange 1024
  -- the list of the tables is not to be unrolled
  generalize List.finRange 1024 = is at hfreeing hnodup ⊢
  refine (freeTables_ends hnodup hfreeing rfl).bind fun _ m₂ hm₂ => ?_
  obtain ⟨l₂, hm₂⟩ := hm₂
  have hlast := hm₂.free (P := .dir) (p := pd) (T := fun _ => False) (.inl rfl) rfl (by simp [Left])
  refine kfree_ends (hm₂.ram (P := .dir) (.inl rfl) rfl) ⟨pd :: l₂, hlast.chain, hlast.nodup, fun p => ?_, hlast.outside⟩
  rw [hlast.cover p]
  simp

theorem chain_range' {word : Page → Fin 1024 → Word} {a n : Nat} (hnext : ∀ p, a ≤ p → p < a + n → word p 0 = p2v (p + 1))
    (hlast : word (a + n) 0 = 0) : Chain word (p2v a) (List.range' a (n + 1)) := by
  induction n generalizing a with
  | zero => exact ⟨rfl, hlast⟩
  | succ n ih =>
    rw [List.range'_succ]
    refine ⟨rfl, ?_⟩
    rw [hnext a le_rfl (by omega)]
    exact ih (fun p hp hp' => hnext p (by omega) (by omega)) (by rwa [Nat.add_right_comm, Nat.add_assoc])

def layout : Layout := ⟨257, 300, by decide, by decide, by decide⟩

def oneProcess : Mem where
  freelist := p2v 2000
  word p i :=
    if i = 0 then
      if p = 1000 then addr 1001 ||| 7
      else if p = 1001 then addr 1002 ||| 7
      else if 2000 ≤ p ∧ p < 3999 then p2v (p + 1)
      else 0
    else 0

theorem table_oneProcess (i : Fin 1024) : oneProcess.table 1000 i = if i = 0 then some 1001 else none := by
  by_cases hi : i = 0
  · subst hi
    decide +kernel
  · simp [Mem.table, oneProcess, hi]

theorem pte_oneProcess (hk : k < maxPage) :
    oneProcess.pte 1000 k = if k = 0 then addr 1002 ||| 7 else 0 := by
  rw [Mem.pte, table_oneProcess]
  by_cases hpdx : Vm.pdx k = 0
  · rw [if_pos hpdx]
    change oneProcess.word 1001 (Vm.ptx k) = _
    by_cases hptx : Vm.ptx k = 0
    · rw [if_pos (Vm.eq_of_pdx_ptx (b := 0) hk (by decide) hpdx hptx), hptx]
      rfl
    · have hne : k ≠ 0 := by
        rintro rfl
        exact hptx rfl
      rw [if_neg hne]
      simp [oneProcess, hptx]
  · have hne : k ≠ 0 := by
      rintro rfl
      exact hpdx rfl
    rw [if_neg hpdx, if_neg hne]
    rfl

theorem frameAt_oneProcess (k : Nat) : oneProcess.frameAt 1000 k = if k = 0 then some 1002 else none := by
  by_cases hk : k < kernbase
  · have hmax : k < maxPage := lt_trans hk (by decide)
    rw [Mem.frameAt, pte_oneProcess hmax]
    by_cases h0 : k = 0
    · subst h0
      decide +kernel
    · simp [h0]
  · have hne : k ≠ 0 := by
      rintro rfl
      exact hk (by decide)
    simp [Mem.frameAt, hk, hne]

theorem space_oneProcess : Space layout oneProcess (List.range' 2000 2000) 1000 none where
  chain := by
    refine chain_range' (n := 1999) (fun p hp hp' => ?_) (by decide +kernel)
    have h0 : p ≠ 1000 := by omega
    have h1 : p ≠ 1001 := by omega
    simp [oneProcess, h0, h1, hp, (by omega : p < 3999)]
  nodup := List.nodup_range'
  owns := by
    have hnum : ∀ P p, oneProcess.num 1000 none P = some p →
        (P = .dir ∧ p = 1000) ∨ (P = .table 0 ∧ p = 1001) ∨ (P = .page 0 ∧ p = 1002) := by
      rintro (_ | i | k | _) p hP
      · exact .inl ⟨rfl, (Option.some.inj hP).symm⟩
      · rw [Mem.num, table_oneProcess] at hP
        grind
      · rw [Mem.num, frameAt_oneProcess] at hP
        grind
      · cases hP
    have hram : ∀ p : Nat, 1000 ≤ p → p < 4000 → Ram layout p := by
      intro p hp hp'
      exact ⟨le_trans (by decide) hp, lt_trans hp' (by decide)⟩
    refine ⟨fun P _ _ p hP => ?_, fun P Q _ _ hne heq => ?_, fun P _ _ hfree => ?_, ?_⟩
    · rcases hnum P p hP with ⟨-, rfl⟩ | ⟨-, rfl⟩ | ⟨-, rfl⟩
      all_goals exact hram _ (by decide) (by decide)
    · obtain ⟨p, hp⟩ := Option.ne_none_iff_exists'.mp hne
      have hP := hnum P p hp
      have hQ := hnum Q p (heq ▸ hp)
      grind
    · obtain ⟨p, hp, hP⟩ := hfree
      have hrange := List.mem_range'_1.mp hp
      rcases hnum P p hP with ⟨-, rfl⟩ | ⟨-, rfl⟩ | ⟨-, rfl⟩
      all_goals exact absurd hrange.1 (by decide)
    · rintro o ⟨p, hp, rfl⟩ q hq
      cases hq
      have hrange := List.mem_range'_1.mp hp
      exact hram p (le_trans (by decide) hrange.1) hrange.2

theorem deallocuvm_frees_range_all : (4096 : Word) ≤ 0x80000000 ∧
    ∃ m', deallocuvm layout 1000 4096 0 oneProcess = .ok (0, m') ∧
      Space layout m' ((oneProcess.frames 1000 0 1).reverse ++ List.range' 2000 2000) 1000 none ∧ m'.pte 1000 0 = 0 := by
  have hold : (4096 : Word) ≤ 0x80000000 := by decide
  refine ⟨hold, ?_⟩
  obtain ⟨m', hrun, hspace, hpte, -⟩ := @deallocuvm_frees_range layout oneProcess _ 1000 4096 0 space_oneProcess hold
  refine ⟨m', hrun, hspace, ?_⟩
  rw [hpte 0 (by decide), pte_oneProcess (by decide), if_pos rfl]
  decide +kernel

end Xv6.Paging
