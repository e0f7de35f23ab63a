import Mathlib.Tactic.TypeStar

/-! Programs with a state that may stop for good.  `Does` says exactly how a program ends, its
final state seen through an abstraction; `Triple` is partial correctness. -/

namespace Xv6.Lib

abbrev Prog (σ ε α : Type) := StateT σ (Except ε) α

namespace Prog

variable {σ τ ε α β : Type} {abs : σ → τ} {I : σ → Prop} {s s' : σ} {x : Prog σ ε α} {f : α → Prog σ ε β}

theorem bind_ok (h : x s = .ok (a, s')) : (x >>= f) s = f a s' := by
  change ((x s).bind fun p => f p.1 p.2) = f a s'
  rw [h]
  rfl

theorem bind_error (h : x s = .error e) : (x >>= f) s = .error e := by
  change ((x s).bind fun p => f p.1 p.2) = .error e
  rw [h]
  rfl

theorem of_bind_ok (h : (x >>= f) s = .ok (b, t)) :
    ∃ a s', x s = .ok (a, s') ∧ f a s' = .ok (b, t) := by
  cases hx : x s with
  | error e =>
    rw [bind_error hx] at h
    cases h
  | ok p =>
    obtain ⟨a, s'⟩ := p
    rw [bind_ok hx] at h
    exact ⟨a, s', rfl, h⟩

theorem bind_congr {y : Prog σ ε α} {g : α → Prog σ ε β} (hxy : x s = y s)
    (h : ∀ a t, x s = .ok (a, t) → f a t = g a t) : (x >>= f) s = (y >>= g) s := by
  cases hx : x s with
  | error e => rw [bind_error hx, bind_error (hxy ▸ hx)]
  | ok p =>
    obtain ⟨a, t⟩ := p
    rw [bind_ok hx, bind_ok (hxy ▸ hx)]
    exact h a t hx

theorem eq_error_of_map (h : (x s).map g = .error e) : x s = .error e := by
  cases hx : x s with
  | error e' =>
    rw [hx] at h
    cases h
    rfl
  | ok r =>
    rw [hx] at h
    cases h

theorem exists_of_ok_any (h : (x s).toOption.any p) :
    ∃ a s', x s = .ok (a, s') ∧ p (a, s') := by
  cases hx : x s with
  | error e =>
    rw [hx] at h
    cases h
  | ok r => exact ⟨r.1, r.2, rfl, by rwa [hx] at h⟩

inductive Does (abs : σ → τ) (I : σ → Prop) (x : Prog σ ε α) (s : σ) : Except ε (α × τ) → Prop
  | ok {a s' v} : x s = .ok (a, s') → I s' → abs s' = v → Does abs I x s (.ok (a, v))
  | error {e} : x s = .error e → Does abs I x s (.error e)

namespace Does

theorem pure (hI : I s) (hv : abs s = v) :
    Does (ε := ε) abs I (Pure.pure a) s (.ok (a, v)) := .ok rfl hI hv

theorem bind (hx : Does abs I x s (.ok (a, v)))
    (hf : ∀ s', I s' → abs s' = v → Does abs I (f a) s' r) : Does abs I (x >>= f) s r := by
  cases hx with
  | @ok _ s' _ hx hI hv =>
    cases hf s' hI hv with
    | ok hrest hI' hv' => exact .ok ((bind_ok hx).trans hrest) hI' hv'
    | error hrest => exact .error ((bind_ok hx).trans hrest)

theorem bind_error (hx : Does abs I x s (.error e)) : Does abs I (x >>= f) s (.error e) := by
  cases hx with
  | error hx => exact .error (Prog.bind_error hx)

theorem get {f : σ → Prog σ ε β} {r : Except ε (β × τ)} (h : Does abs I (f s) s r) :
    Does abs I (MonadState.get >>= f) s r := by
  cases h with
  | ok hf hI hv => exact .ok hf hI hv
  | error hf => exact .error hf

theorem bind_exists {a : α} {v : τ} {Q : Except ε (β × τ) → Prop} (hx : Does abs I x s (.ok (a, v)))
    (hf : ∀ s', I s' → abs s' = v → ∃ r, Q r ∧ Does abs I (f a) s' r) :
    ∃ r, Q r ∧ Does abs I (x >>= f) s r := by
  cases hx with
  | @ok _ s' _ hx hI hv =>
    obtain ⟨r, hQ, hr⟩ := hf s' hI hv
    refine ⟨r, hQ, ?_⟩
    cases hr with
    | ok hrest hI' hv' => exact .ok ((bind_ok hx).trans hrest) hI' hv'
    | error hrest => exact .error ((bind_ok hx).trans hrest)

theorem eq_ok (h : Does abs I x s r) (hx : x s = .ok (a, t)) :
    r = .ok (a, abs t) ∧ I t := by
  cases h with
  | ok h hI hv =>
    rw [hx] at h
    cases h
    exact ⟨by rw [hv], hI⟩
  | error h =>
    rw [hx] at h
    cases h

theorem of_ok (h : Does abs I x s (.ok (a, v))) (hx : x s = .ok (b, t)) :
    b = a ∧ abs t = v ∧ I t := by
  obtain ⟨hr, hI⟩ := h.eq_ok hx
  cases hr
  exact ⟨rfl, rfl, hI⟩

theorem ne_ok (h : Does abs I x s (.error e)) : x s ≠ .ok p := by
  intro hx
  cases (h.eq_ok hx).1

theorem eq_error (h : Does abs I x s r) (hx : x s = .error e) :
    r = .error e := by
  cases h with
  | ok h _ _ =>
    rw [hx] at h
    cases h
  | error h =>
    rw [hx] at h
    cases h
    rfl

end Does

/-- If the program ends at all, it takes `P` to `Q`. -/
def Triple (P : σ → Prop) (x : Prog σ ε α) (Q : α → σ → Prop) : Prop :=
  ∀ s a s', P s → x s = .ok (a, s') → Q a s'

namespace Triple

variable {P P' : σ → Prop} {Q : α → σ → Prop} {R : β → σ → Prop}

theorem pure (h : ∀ s, P s → Q a s) : Triple (ε := ε) P (Pure.pure a) Q := by
  rintro s b s' hs hx
  cases hx
  exact h s hs

theorem bind (hx : Triple P x Q) (hf : ∀ a, Triple (Q a) (f a) R) : Triple P (x >>= f) R := by
  rintro s b t hs hbind
  obtain ⟨a, s', ha, hb⟩ := of_bind_ok hbind
  exact hf a s' b t (hx s a s' hs ha) hb

theorem conseq (h : Triple P x Q) (hP : ∀ s, P' s → P s) (hQ : ∀ a s, Q a s → Q' a s) :
    Triple P' x Q' :=
  fun s a s' hs hx => hQ a s' (h s a s' (hP s hs) hx)

theorem pre (h : Triple P x Q) (hP : ∀ s, P' s → P s) : Triple P' x Q := h.conseq hP fun _ _ hQ => hQ

theorem and_left (h : p → Triple P x Q) : Triple (fun s => p ∧ P s) x Q :=
  fun s a s' hs => h hs.1 s a s' hs.2

theorem exists_pre {ι : Type} {P : ι → σ → Prop} (h : ∀ i, Triple (P i) x Q) :
    Triple (fun s => ∃ i, P i s) x Q := by
  rintro s a s' ⟨i, hi⟩ hx
  exact h i s a s' hi hx

theorem ite [Decidable c] (hc : c → Triple P x Q)
    (hn : ¬ c → Triple P y Q) : Triple P (if c then x else y) Q := by
  split
  case isTrue h => exact hc h
  case isFalse h => exact hn h

theorem throw : Triple P (MonadExcept.throw e : Prog σ ε α) Q := by
  rintro s a s' _ h
  cases h

theorem get {f : σ → Prog σ ε β} (h : ∀ s₀, P s₀ → Triple P (f s₀) R) :
    Triple P (MonadState.get >>= f) R :=
  fun s b t hs hx => h s hs s b t hs hx

theorem set {t : σ} {Q : PUnit → σ → Prop} (h : Q ⟨⟩ t) : Triple (ε := ε) P (MonadState.set t) Q := by
  rintro s a s' _ hx
  cases hx
  exact h

theorem discard (h : Triple P x fun _ t => P' t) : Triple P (Functor.discard x) fun _ t => P' t :=
  h.bind fun _ => Triple.pure (a := PUnit.unit) fun _ ht => ht

end Triple

/-- From `s` the program ends in `Q`, or stops for a reason that `E` allows. -/
def Finishes (E : ε → Prop) (x : Prog σ ε α) (s : σ) (Q : α → σ → Prop) : Prop :=
  match x s with
  | .ok (a, t) => Q a t
  | .error e => E e

namespace Finishes

variable {E : ε → Prop} {Q : α → σ → Prop} {R : β → σ → Prop} {t : σ}

theorem pure (h : Q a s) : Finishes E (Pure.pure a) s Q := h

theorem throw (h : E e) : Finishes E (MonadExcept.throw e : Prog σ ε α) s Q := h

theorem get {f : σ → Prog σ ε β} (h : Finishes E (f s) s R) : Finishes E (MonadState.get >>= f) s R := h

theorem set {f : PUnit → Prog σ ε β} (h : Finishes E (f ⟨⟩) t R) : Finishes E (MonadState.set t >>= f) s R := h

theorem modify {g : σ → σ} {f : PUnit → Prog σ ε β} (h : Finishes E (f ⟨⟩) (g s) R) :
    Finishes E (modifyGet (fun s => (⟨⟩, g s)) >>= f) s R := h

theorem put {Q : PUnit → σ → Prop} (h : Q ⟨⟩ t) : Finishes E (MonadState.set t) s Q := h

theorem bind_run (hx : Finishes E x s Q) (hf : ∀ a t, x s = .ok (a, t) → Q a t → Finishes E (f a) t R) :
    Finishes E (x >>= f) s R := by
  unfold Finishes at hx
  cases hxs : x s with
  | error e =>
    rw [hxs] at hx
    rw [Finishes, bind_error hxs]
    exact hx
  | ok p =>
    obtain ⟨a, t⟩ := p
    rw [hxs] at hx
    rw [Finishes, bind_ok hxs]
    exact hf a t hxs hx

theorem bind (hx : Finishes E x s Q) (hf : ∀ a t, Q a t → Finishes E (f a) t R) : Finishes E (x >>= f) s R :=
  hx.bind_run fun a t _ => hf a t

theorem run (hx : x s = .ok (a, t)) (hf : Finishes E (f a) t R) : Finishes E (x >>= f) s R := by
  rwa [Finishes, bind_ok hx]

theorem fail (hx : x s = .error e) (he : E e) : Finishes E (x >>= f) s R := by
  rw [Finishes, bind_error hx]
  exact he

theorem mono (h : Finishes E x s Q) (hQ : ∀ a t, Q a t → Q' a t) : Finishes E x s Q' := by
  unfold Finishes at h ⊢
  cases hxs : x s with
  | error e => rwa [hxs] at h
  | ok p =>
    rw [hxs] at h
    exact hQ _ _ h

theorem weaken (h : Finishes E x s Q) (hE : ∀ e, E e → E' e) : Finishes E' x s Q := by
  unfold Finishes at h ⊢
  cases hxs : x s with
  | error e =>
    rw [hxs] at h
    exact hE e h
  | ok p => rwa [hxs] at h

theorem anyError (h : Finishes E x s Q) : Finishes (fun _ => True) x s Q := h.weaken fun _ _ => trivial

theorem exists_ok (h : Finishes E x s Q) (hE : ∀ e, ¬ E e) : ∃ a t, x s = .ok (a, t) ∧ Q a t := by
  unfold Finishes at h
  cases hxs : x s with
  | error e =>
    rw [hxs] at h
    exact absurd h (hE e)
  | ok p =>
    rw [hxs] at h
    exact ⟨p.1, p.2, rfl, h⟩

theorem of_ok (h : Finishes E x s Q) (hx : x s = .ok (a, t)) : Q a t := by
  rwa [Finishes, hx] at h

theorem and (h : Finishes E x s Q) (h' : Finishes E' x s Q') :
    Finishes E x s fun a t => Q a t ∧ Q' a t := by
  unfold Finishes at h ⊢
  cases hxs : x s with
  | error e => rwa [hxs] at h
  | ok p =>
    rw [hxs] at h
    exact ⟨h, h'.of_ok hxs⟩

theorem of_error (h : Finishes E x s Q) (hx : x s = .error e) : E e := by
  rwa [Finishes, hx] at h

theorem discard {P : σ → Prop} (h : Finishes E x s fun _ t => P t) :
    Finishes E (Functor.discard x) s fun _ t => P t :=
  h.bind fun _ _ ht => .pure (a := PUnit.unit) ht

theorem forM {f : α → Prog σ ε PUnit} {I : List α → σ → Prop}
    (hstep : ∀ a l s, I (a :: l) s → Finishes E (f a) s fun _ t => I l t) (l : List α) (h : I l s) :
    Finishes E (l.forM f) s fun _ t => I [] t := by
  induction l generalizing s with
  | nil => exact h
  | cons a l ih => exact (hstep a l s h).bind fun _ t ht => ih ht

end Finishes

end Prog

end Xv6.Lib
