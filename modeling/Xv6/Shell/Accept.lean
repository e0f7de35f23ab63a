import Xv6.Shell.Lex

namespace Xv6.Shell

open Lib Prog

variable {line : List Byte} {st : State} {ts rest : List Token}

def IsPanic (e : Stop) : Prop := ∃ s, e = .panic s

theorem looks_eq_true (h : looks toks ts = true) :
    ∃ o ts', ts = .op o :: ts' ∧ o.first ∈ toks := by
  unfold looks at h
  split at h
  · next o ts' => exact ⟨o, ts', rfl, of_decide_eq_true h⟩
  · cases h

theorem eq_of_first {o o' : Op} (ho : o ≠ .gt ∧ o ≠ .append) (h : o'.first = o.ret) : o' = o := by
  cases o with
  | gt => exact absurd rfl ho.1
  | append => exact absurd rfl ho.2
  | _ => cases o' <;> first | rfl | exact absurd h (by decide)

theorem looks_single {o : Op} (ho : o ≠ .gt ∧ o ≠ .append) (h : looks [o.ret] ts = true) :
    ∃ ts', ts = .op o :: ts' := by
  obtain ⟨o', ts', rfl, ho'⟩ := looks_eq_true h
  exact ⟨ts', by rw [eq_of_first ho (List.mem_singleton.mp ho')]⟩

theorem length_tokens_le (s : List Byte) : (tokens s).length ≤ s.length := by
  have hdrop : ∀ {s l : List Byte}, s.dropWhile whitespace = l → l.length ≤ s.length := fun h =>
    h ▸ List.length_dropWhile_le ..
  fun_induction tokens s with
  | case1 s h => exact Nat.zero_le _
  | case2 s s' hhead h ih =>
    have hle := hdrop h
    simp only [List.length_cons, List.length_tail] at hle ih ⊢
    omega
  | case3 s s' hhead h ih =>
    have hle := hdrop h
    simp only [List.length_cons] at hle ⊢
    omega
  | case4 s c s' h hc o ho ih =>
    have hle := hdrop h
    simp only [List.length_cons] at hle ⊢
    omega
  | case5 s c s' h hc ho ih =>
    have hle := hdrop h
    have hplain := List.length_dropWhile_le plain s'
    simp only [List.length_cons] at hle ⊢
    omega

theorem At.alloc (h : At line st ts) (heap : List Node) : At line { st with heap := heap } ts := ⟨h.le, h.toks⟩

theorem At.length_le (h : At line st ts) : ts.length ≤ line.length := by
  have hle := length_tokens_le (line.drop st.ps)
  rw [h.toks, List.length_drop] at hle
  omega

theorem At.lt (h : At line st ts) : ts.length < line.length + 1 := Nat.lt_succ_of_le h.length_le

theorem exists_redirOp (h : o.first ∈ ([60, 62] : List Byte)) : ∃ r : RedirOp, o = r.op := by
  cases o with
  | lt => exact ⟨.input, rfl⟩
  | gt => exact ⟨.output, rfl⟩
  | append => exact ⟨.append, rfl⟩
  | _ => exact absurd h (by decide)

theorem ret_ne_word (o : Op) : o.ret ≠ 97 := by cases o <;> decide

theorem ret_ne_zero (o : Op) : o.ret ≠ 0 := by cases o <;> decide

theorem addRedir_eq (r : RedirOp) (cmd q e : Nat) :
    addRedir r.op.ret cmd q e = redircmd cmd q e r.mode r.fd := by
  cases r <;> rfl

theorem malloc_bind
    (hf : Finishes E (f st.heap.length) { st with heap := st.heap ++ [n] } R) : Finishes E (malloc n >>= f) st R := hf

section Loops

variable (hline : 0 ∉ line)
include hline

theorem redirsLoop_sound (fuel cmd : Nat) (h : At line st ts) (hfuel : ts.length < fuel) :
    Finishes IsPanic (redirsLoop line fuel cmd) st fun _ st' =>
      ∃ rs rest, ts = redirsYield rs ++ rest ∧ At line st' rest := by
  induction fuel generalizing cmd st ts with
  | zero => omega
  | succ fuel ih =>
    refine peek_bind hline h (by decide) fun st₁ h₁ _ _ => ?_
    cases hlooks : looks [60, 62] ts with
    | false => exact .pure ⟨[], ts, rfl, h₁⟩
    | true =>
      obtain ⟨o, ts, rfl, ho⟩ := looks_eq_true hlooks
      obtain ⟨r, rfl⟩ := exists_redirOp ho
      refine gettoken_bind hline h₁ fun _ st₂ _ hgot h₂ _ => ?_
      cases hgot with
      | op =>
        refine gettoken_bind hline h₂ fun _ st₃ _ hgot h₃ _ => ?_
        cases hgot with
        | done => exact .throw ⟨_, rfl⟩
        | op =>
          dsimp only
          rw [if_pos (ret_ne_word _)]
          exact .throw ⟨_, rfl⟩
        | @word w _ q e hword =>
          dsimp only
          rw [if_neg (by decide), addRedir_eq]
          simp only [List.length_cons] at hfuel
          refine malloc_bind ((ih st₃.heap.length (h₃.alloc _) (by omega)).mono ?_)
          rintro _ st' ⟨rs, rest, rfl, hrest⟩
          exact ⟨⟨r, w⟩ :: rs, rest, rfl, hrest⟩

theorem parseredirs_sound (cmd : Nat) (h : At line st ts) :
    Finishes IsPanic (parseredirs line cmd) st fun _ st' =>
      ∃ rs rest, ts = redirsYield rs ++ rest ∧ At line st' rest :=
  redirsLoop_sound hline _ cmd h h.lt

theorem argsLoop_sound (fuel cmd ret : Nat) (argc : Fin 10) (h : At line st ts) (hfuel : ts.length < fuel) :
    Finishes IsPanic (argsLoop line fuel cmd ret argc) st fun _ st' =>
      ∃ args rest, ts = argsYield args ++ rest ∧ argc + args.length < 10 ∧ At line st' rest := by
  induction fuel generalizing ret argc st ts with
  | zero => omega
  | succ fuel ih =>
    refine peek_bind hline h (by decide) fun st₁ h₁ _ _ => ?_
    cases hlooks : looks [124, 41, 38, 59] ts with
    | true => exact ⟨[], ts, rfl, argc.isLt, h₁.alloc _⟩
    | false =>
      refine gettoken_bind hline h₁ fun _ st₂ _ hgot h₂ _ => ?_
      cases hgot with
      | done => exact ⟨[], [], rfl, argc.isLt, h₂.alloc _⟩
      | op =>
        dsimp only
        rw [if_neg (ret_ne_zero _), if_pos (ret_ne_word _)]
        exact .throw ⟨_, rfl⟩
      | @word w _ q e hword =>
        dsimp only
        rw [if_neg (by decide), if_neg (by decide)]
        refine .modify ?_
        split
        · next hargc =>
          refine .bind (parseredirs_sound hline ret (h₂.alloc _)) ?_
          rintro ret st₃ ⟨rs, rest, rfl, h₃⟩
          simp only [List.length_cons, List.length_append] at hfuel
          refine (ih ret ⟨argc + 1, hargc⟩ h₃ (by omega)).mono ?_
          rintro _ st' ⟨args, rest, rfl, hargs, hrest⟩
          refine ⟨(w, rs) :: args, rest, by simp [argsYield], ?_, hrest⟩
          simp only [List.length_cons] at hargs ⊢
          omega
        · exact .throw ⟨_, rfl⟩

theorem backLoop_sound (fuel cmd : Nat) (h : At line st ts) (hfuel : ts.length < fuel) :
    Finishes IsPanic (backLoop line fuel cmd) st fun _ st' =>
      ∃ n rest, ts = List.replicate n (.op .amp) ++ rest ∧ At line st' rest := by
  induction fuel generalizing cmd st ts with
  | zero => omega
  | succ fuel ih =>
    refine peek_bind hline h (by decide) fun st₁ h₁ _ _ => ?_
    cases hlooks : looks [38] ts with
    | false => exact .pure ⟨0, ts, rfl, h₁⟩
    | true =>
      obtain ⟨ts, rfl⟩ := looks_single (o := .amp) (by decide) hlooks
      refine gettoken_bind hline h₁ fun _ st₂ _ hgot h₂ _ => ?_
      cases hgot with
      | op =>
        rw [List.length_cons] at hfuel
        refine malloc_bind ((ih st₂.heap.length (h₂.alloc _) (by omega)).mono ?_)
        rintro _ st' ⟨n, rest, rfl, hrest⟩
        exact ⟨n + 1, rest, rfl, hrest⟩

end Loops

def run (line : List Byte) : Part → Nat → M Nat
  | .line => parseline line
  | .pipe => parsepipe line
  | .exec => parseexec line

def depth : Part → Nat
  | .line => 4
  | .pipe => 3
  | .exec => 2

def Accepts (line : List Byte) (x : Part) (ts : List Token) (m : M Nat) (st : State) : Prop :=
  Finishes IsPanic m st fun _ st' => ∃ (d : Deriv x) (rest : List Token), d.Short ∧ ts = d.yield ++ rest ∧ At line st' rest

section Parser

variable (hline : 0 ∉ line) {fuel : Nat}
include hline

theorem parseline_sound
    (hpipe : ∀ st ts, At line st ts → 4 * ts.length + 3 ≤ fuel → Accepts line .pipe ts (parsepipe line fuel) st)
    (hparseline : ∀ st ts, At line st ts → 4 * ts.length + 4 ≤ fuel → Accepts line .line ts (parseline line fuel) st)
    (h : At line st ts) (hfuel : 4 * ts.length + 4 ≤ fuel + 1) :
    Accepts line .line ts (parseline line (fuel + 1)) st := by
  unfold parseline
  refine (hpipe st ts h (by omega)).bind ?_
  rintro cmd st₁ ⟨p, ts₁, hp, rfl, h₁⟩
  refine (backLoop_sound hline _ cmd h₁ h₁.lt).bind ?_
  rintro cmd st₂ ⟨n, ts₂, rfl, h₂⟩
  refine peek_bind hline h₂ (by decide) fun st₃ h₃ _ _ => ?_
  cases hlooks : looks [59] ts₂ with
  | false => exact .pure ⟨.line p n, ts₂, hp, by simp [Deriv.yield], h₃⟩
  | true =>
    obtain ⟨ts₃, rfl⟩ := looks_single (o := .semi) (by decide) hlooks
    refine gettoken_bind hline h₃ fun _ st₄ _ hgot h₄ _ => ?_
    cases hgot with
    | op =>
      simp only [List.length_append, List.length_cons] at hfuel
      refine (hparseline st₄ _ h₄ (by omega)).bind ?_
      rintro right st₅ ⟨l, ts₅, hl, rfl, h₅⟩
      exact ⟨.lines p n l, ts₅, ⟨hp, hl⟩, by simp [Deriv.yield], h₅.alloc _⟩

theorem parsepipe_sound
    (hexec : ∀ st ts, At line st ts → 4 * ts.length + 2 ≤ fuel → Accepts line .exec ts (parseexec line fuel) st)
    (hparsepipe : ∀ st ts, At line st ts → 4 * ts.length + 3 ≤ fuel → Accepts line .pipe ts (parsepipe line fuel) st)
    (h : At line st ts) (hfuel : 4 * ts.length + 3 ≤ fuel + 1) :
    Accepts line .pipe ts (parsepipe line (fuel + 1)) st := by
  unfold parsepipe
  refine (hexec st ts h (by omega)).bind ?_
  rintro cmd st₁ ⟨e, ts₁, he, rfl, h₁⟩
  refine peek_bind hline h₁ (by decide) fun st₂ h₂ _ _ => ?_
  cases hlooks : looks [124] ts₁ with
  | false => exact .pure ⟨.pipe e, ts₁, he, rfl, h₂⟩
  | true =>
    obtain ⟨ts₂, rfl⟩ := looks_single (o := .bar) (by decide) hlooks
    refine gettoken_bind hline h₂ fun _ st₃ _ hgot h₃ _ => ?_
    cases hgot with
    | op =>
      simp only [List.length_append, List.length_cons] at hfuel
      refine (hparsepipe st₃ _ h₃ (by omega)).bind ?_
      rintro right st₄ ⟨p, ts₄, hp, rfl, h₄⟩
      exact ⟨.pipes e p, ts₄, ⟨he, hp⟩, by simp [Deriv.yield], h₄.alloc _⟩

theorem parseexec_sound
    (hblock : ∀ st ts, At line st ts → looks [40] ts = true → 4 * ts.length + 1 ≤ fuel →
      Accepts line .exec ts (parseblock line fuel) st)
    (h : At line st ts) (hfuel : 4 * ts.length + 2 ≤ fuel + 1) :
    Accepts line .exec ts (parseexec line (fuel + 1)) st := by
  unfold parseexec
  refine peek_bind hline h (by decide) fun st₁ h₁ _ _ => ?_
  cases hlooks : looks [40] ts with
  | true => exact hblock st₁ ts h₁ hlooks (by omega)
  | false =>
    refine malloc_bind ((parseredirs_sound hline st₁.heap.length (h₁.alloc _)).bind ?_)
    rintro ret st₂ ⟨rs, ts₂, rfl, h₂⟩
    refine (argsLoop_sound hline _ _ ret 0 h₂ h₂.lt).mono ?_
    rintro _ st₃ ⟨args, rest, rfl, hargs, h₃⟩
    exact ⟨.exec rs args, rest, by simpa [Deriv.Short] using hargs, by simp [Deriv.yield], h₃⟩

theorem parseblock_sound
    (hparseline : ∀ st ts, At line st ts → 4 * ts.length + 4 ≤ fuel → Accepts line .line ts (parseline line fuel) st)
    (h : At line st ts) (hlooks : looks [40] ts = true) (hfuel : 4 * ts.length + 1 ≤ fuel + 1) :
    Accepts line .exec ts (parseblock line (fuel + 1)) st := by
  unfold parseblock
  refine peek_bind hline h (by decide) fun st₁ h₁ _ _ => ?_
  rw [hlooks]
  obtain ⟨ts, rfl⟩ := looks_single (o := .lparen) (by decide) hlooks
  refine gettoken_bind hline h₁ fun _ st₂ _ hgot h₂ _ => ?_
  cases hgot with
  | op =>
    rw [List.length_cons] at hfuel
    refine (hparseline st₂ _ h₂ (by omega)).bind ?_
    rintro cmd st₃ ⟨l, ts₃, hl, rfl, h₃⟩
    refine peek_bind hline h₃ (by decide) fun st₄ h₄ _ _ => ?_
    cases hlooks : looks [41] ts₃ with
    | false => exact .throw ⟨_, rfl⟩
    | true =>
      obtain ⟨ts₄, rfl⟩ := looks_single (o := .rparen) (by decide) hlooks
      refine gettoken_bind hline h₄ fun _ st₅ _ hgot h₅ _ => ?_
      cases hgot with
      | op =>
        refine (parseredirs_sound hline cmd h₅).mono ?_
        rintro _ st₆ ⟨rs, rest, rfl, h₆⟩
        exact ⟨.block l rs, rest, hl, by simp [Deriv.yield], h₆⟩

theorem accepts (fuel : Nat) :
    (∀ x st ts, At line st ts → 4 * ts.length + depth x ≤ fuel → Accepts line x ts (run line x fuel) st) ∧
    ∀ st ts, At line st ts → looks [40] ts = true → 4 * ts.length + 1 ≤ fuel →
      Accepts line .exec ts (parseblock line fuel) st := by
  induction fuel with
  | zero => exact ⟨fun x st ts _ hfuel => by cases x <;> simp [depth] at hfuel, fun st ts _ _ hfuel => by omega⟩
  | succ fuel ih =>
    obtain ⟨ih, hblock⟩ := ih
    refine ⟨fun x st ts h hfuel => ?_, fun st ts h hlooks hfuel => parseblock_sound hline (ih .line) h hlooks hfuel⟩
    cases x with
    | line => exact parseline_sound hline (ih .pipe) (ih .line) h hfuel
    | pipe => exact parsepipe_sound hline (ih .exec) (ih .pipe) h hfuel
    | exec => exact parseexec_sound hline hblock h hfuel

end Parser

end Xv6.Shell
