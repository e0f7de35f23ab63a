import Xv6.Lib.Scan

namespace Xv6.Lib

variable {α β : Type} [LinearOrder α] [LinearOrder β] {key : α → β} {p q f : α}

/-- `q` has the least key in `S`, and of the places with that key it is the first. -/
structure FirstMin (S : α → Prop) (key : α → β) (q : α) : Prop where
  mem : S q
  least : ∀ p, S p → key q ≤ key p
  first : ∀ p, S p → p < q → key q < key p

def beats (key : α → β) (gate : α → Bool) (p q : α) : Bool := decide (key p < key q) && gate p

section Loop

variable {cand gate : α → Bool} {l : List α}

omit [LinearOrder α] in
theorem beats_iff : beats key gate p q ↔ key p < key q ∧ gate p := by
  rw [beats, Bool.and_eq_true, decide_eq_true_eq]

theorem foldl_select_firstMin (hl : (c :: l).Pairwise (· < ·)) :
    ∃ q, l.foldl (selectStep cand (beats key gate)) (some c) = some q ∧
      FirstMin (fun p => p = c ∨ p ∈ l ∧ cand p ∧ gate p) key q := by
  induction l generalizing c with
  | nil =>
    refine ⟨c, rfl, .inl rfl, ?_, ?_⟩
    · rintro p (rfl | ⟨hp, -⟩)
      · exact le_rfl
      · cases hp
    · rintro p (rfl | ⟨hp, -⟩) hlt
      · exact absurd hlt (lt_irrefl p)
      · cases hp
  | cons a l ih =>
    obtain ⟨hc, hal⟩ := List.pairwise_cons.mp hl
    have hca := hc a List.mem_cons_self
    by_cases hrep : cand a ∧ key a < key c ∧ gate a
    · obtain ⟨hcand, hlt, hgate⟩ := hrep
      have hstep : selectStep cand (beats key gate) (some c) a = some a := by
        rw [selectStep, if_pos hcand, Option.getD_some, if_pos (beats_iff.mpr ⟨hlt, hgate⟩)]
      obtain ⟨q, hq, hmem, hleast, hfirst⟩ := ih hal
      refine ⟨q, by rw [List.foldl_cons, hstep, hq], ?_, ?_, ?_⟩
      · rcases hmem with rfl | ⟨hql, hqc⟩
        · exact .inr ⟨List.mem_cons_self, hcand, hgate⟩
        · exact .inr ⟨List.mem_cons_of_mem a hql, hqc⟩
      · rintro p (rfl | ⟨hp, hpc⟩)
        · exact (hleast a (.inl rfl)).trans hlt.le
        · rcases List.mem_cons.mp hp with rfl | hp
          · exact hleast p (.inl rfl)
          · exact hleast p (.inr ⟨hp, hpc⟩)
      · rintro p (rfl | ⟨hp, hpc⟩) hpq
        · exact (hleast a (.inl rfl)).trans_lt hlt
        · rcases List.mem_cons.mp hp with rfl | hp
          · exact hfirst p (.inl rfl) hpq
          · exact hfirst p (.inr ⟨hp, hpc⟩) hpq
    · have hstep : selectStep cand (beats key gate) (some c) a = some c := by
        unfold selectStep
        split
        · next hcand =>
          rw [Option.getD_some, if_neg fun hb => hrep ⟨hcand, beats_iff.mp hb⟩]
        · rfl
      have hcl : (c :: l).Pairwise (· < ·) :=
        List.pairwise_cons.mpr ⟨fun p hp => hc p (List.mem_cons_of_mem a hp), (List.pairwise_cons.mp hal).2⟩
      obtain ⟨q, hq, hmem, hleast, hfirst⟩ := ih hcl
      have hkeep : cand a → gate a → key c ≤ key a := fun hcand hgate =>
        le_of_not_gt fun hlt => hrep ⟨hcand, hlt, hgate⟩
      refine ⟨q, by rw [List.foldl_cons, hstep, hq], ?_, ?_, ?_⟩
      · exact hmem.imp_right fun h => ⟨List.mem_cons_of_mem a h.1, h.2⟩
      · rintro p (rfl | ⟨hp, hpc⟩)
        · exact hleast p (.inl rfl)
        · rcases List.mem_cons.mp hp with rfl | hp
          · exact (hleast c (.inl rfl)).trans (hkeep hpc.1 hpc.2)
          · exact hleast p (.inr ⟨hp, hpc⟩)
      · rintro p (rfl | ⟨hp, hpc⟩) hpq
        · exact hfirst p (.inl rfl) hpq
        · rcases List.mem_cons.mp hp with rfl | hp
          · exact (hfirst c (.inl rfl) (hca.trans hpq)).trans_le (hkeep hpc.1 hpc.2)
          · exact hfirst p (.inr ⟨hp, hpc⟩) hpq

theorem select_firstMin (hl : l.Pairwise (· < ·)) (hf : l.find? cand = some f) :
    ∃ q, select cand (beats key gate) l = some q ∧
      FirstMin (fun p => p = f ∨ p ∈ l ∧ cand p ∧ gate p) key q := by
  obtain ⟨hcand, l₁, l₂, rfl, hbefore⟩ := List.find?_eq_some_iff_append.mp hf
  have hnone : ∀ p ∈ l₁, ¬cand p := fun p hp => by simpa using hbefore p hp
  have hskip : select cand (beats key gate) (l₁ ++ f :: l₂) =
      l₂.foldl (selectStep cand (beats key gate)) (some f) := by
    have hl₁ : select cand (beats key gate) l₁ = none := select_eq_none_iff.mpr hnone
    have hstep : selectStep cand (beats key gate) none f = some f := by
      simp [selectStep, hcand]
    rw [select] at hl₁ ⊢
    rw [List.foldl_append, hl₁, List.foldl_cons, hstep]
  obtain ⟨q, hq, hmin⟩ : ∃ q, l₂.foldl (selectStep cand (beats key gate)) (some f) = some q ∧
      FirstMin (fun p => p = f ∨ p ∈ l₂ ∧ cand p ∧ gate p) key q :=
    foldl_select_firstMin (List.pairwise_append.mp hl).2.1
  have hsame : (fun p => p = f ∨ p ∈ l₁ ++ f :: l₂ ∧ cand p ∧ gate p) =
      fun p => p = f ∨ p ∈ l₂ ∧ cand p ∧ gate p := by
    funext p
    apply propext
    constructor
    · rintro (heq | ⟨hp, hpc⟩)
      · exact .inl heq
      · rcases List.mem_append.mp hp with hp | hp
        · exact absurd hpc.1 (hnone p hp)
        · rcases List.mem_cons.mp hp with heq | hp
          · exact .inl heq
          · exact .inr ⟨hp, hpc⟩
    · rintro (heq | ⟨hp, hpc⟩)
      · exact .inl heq
      · exact .inr ⟨List.mem_append_right l₁ (List.mem_cons_of_mem f hp), hpc⟩
  exact ⟨q, hskip.trans hq, hsame ▸ hmin⟩

theorem firstMin_of_select (hl : l.Pairwise (· < ·))
    (h : select cand (fun p q => decide (key p < key q)) l = some q) : FirstMin (fun p => p ∈ l ∧ cand p) key q := by
  obtain ⟨hq, hcand⟩ := select_mem h
  obtain ⟨f, hf⟩ : ∃ f, l.find? cand = some f := Option.isSome_iff_exists.mp (List.find?_isSome.mpr ⟨q, hq, hcand⟩)
  have hbeats : (fun p q => decide (key p < key q)) = beats key fun _ => true := by
    funext p q
    rw [beats, Bool.and_true]
  obtain ⟨r, hr, hmin⟩ : ∃ r, select cand (beats key fun _ => true) l = some r ∧
      FirstMin (fun p => p = f ∨ p ∈ l ∧ cand p ∧ true) key r := select_firstMin hl hf
  rw [hbeats, hr] at h
  cases h
  exact ⟨⟨hq, hcand⟩, fun p hp => hmin.least p (.inr ⟨hp.1, hp.2, rfl⟩),
    fun p hp hlt => hmin.first p (.inr ⟨hp.1, hp.2, rfl⟩) hlt⟩

end Loop

end Xv6.Lib
