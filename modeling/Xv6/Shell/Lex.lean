import Xv6.Shell.Grammar

namespace Xv6.Shell

open Lib Prog

variable {line : List Byte} {p : Byte → Bool} {s : Nat}

theorem skipLoop_eq (fuel : Nat) (h : line.length - s ≤ fuel) :
    skipLoop line p fuel s = s + ((line.drop s).takeWhile p).length := by
  induction fuel generalizing s with
  | zero =>
    rw [skipLoop, List.drop_eq_nil_of_le (by omega)]
    rfl
  | succ fuel ih =>
    rw [skipLoop]
    by_cases hs : s < line.length
    · rw [List.drop_eq_getElem_cons hs, List.takeWhile_cons, List.getD_eq_getElem?_getD,
        List.getElem?_eq_getElem hs, Option.getD_some]
      by_cases hp : p (line)[s]
      · rw [if_pos ⟨hs, hp⟩, if_pos hp, ih (by omega), List.length_cons]
        omega
      · rw [if_neg fun h => hp h.2, if_neg hp]
        rfl
    · rw [if_neg fun h => hs h.1, List.drop_eq_nil_of_le (by omega)]
      rfl

theorem skip_eq : skip line p s = s + ((line.drop s).takeWhile p).length := skipLoop_eq _ le_rfl

theorem drop_skip : line.drop (skip line p s) = (line.drop s).dropWhile p := by
  have happend := List.takeWhile_append_dropWhile (p := p) (l := line.drop s)
  rw [skip_eq, ← List.drop_drop]
  nth_rewrite 2 [← happend]
  rw [List.drop_left]

theorem skip_le (h : s ≤ line.length) : skip line p s ≤ line.length := by
  have hle := (List.takeWhile_sublist p (l := line.drop s)).length_le
  rw [List.length_drop] at hle
  rw [skip_eq]
  omega

theorem getD_eq_head : line.getD s 0 = ((line.drop s).head?).getD 0 := by
  rw [List.getD_eq_getElem?_getD, List.head?_drop]

theorem tokens_dropWhile (s : List Byte) : tokens (s.dropWhile whitespace) = tokens s := by
  rw [tokens, tokens, List.dropWhile_idempotent]

variable {c : Byte} {l l' : List Byte} {o : Op}

theorem tokens_nil (h : l.dropWhile whitespace = []) : tokens l = [] := by
  rw [tokens]
  split
  · rfl
  · next heq => cases h.symm.trans heq

theorem tokens_append (h : l.dropWhile whitespace = 62 :: 62 :: l') : tokens l = .op .append :: tokens l' := by
  rw [tokens]
  split
  · next heq => cases h.symm.trans heq
  · next heq =>
    cases h.symm.trans heq
    rfl

theorem tokens_gt (h : l.dropWhile whitespace = 62 :: l') (hne : l'.head? ≠ some 62) :
    tokens l = .op .gt :: tokens l' := by
  rw [tokens]
  split
  · next heq => cases h.symm.trans heq
  · next heq =>
    cases h.symm.trans heq
    rw [if_pos rfl, if_neg hne]

theorem tokens_op (h : l.dropWhile whitespace = c :: l') (hc : c ≠ 62) (ho : Op.single c = some o) :
    tokens l = .op o :: tokens l' := by
  rw [tokens]
  split
  · next heq => cases h.symm.trans heq
  · next heq =>
    cases h.symm.trans heq
    rw [if_neg hc]
    split
    · next heq => cases ho.symm.trans heq; rfl
    · next heq => cases ho.symm.trans heq

theorem tokens_word (h : l.dropWhile whitespace = c :: l') (hc : c ≠ 62) (ho : Op.single c = none) :
    tokens l = .word (c :: l'.takeWhile plain) :: tokens (l'.dropWhile plain) := by
  rw [tokens]
  split
  · next heq => cases h.symm.trans heq
  · next heq =>
    cases h.symm.trans heq
    rw [if_neg hc]
    split
    · next heq => cases ho.symm.trans heq
    · rfl

def Op.ret : Op → Byte
  | bar => 124
  | lparen => 40
  | rparen => 41
  | semi => 59
  | amp => 38
  | lt => 60
  | gt => 62
  | append => 43

def Op.first : Op → Byte
  | append => 62
  | o => o.ret

structure IsWord (line : List Byte) (q e : Nat) (w : Text) : Prop where
  le : e ≤ line.length
  end_eq : e = q + w.length
  text : line.drop q = w ++ line.drop e
  plain : ∀ c ∈ w, plain c
  stop : ∀ c ∈ (line.drop e).head?, ¬ Shell.plain c

inductive Got (line : List Byte) : List Token → Byte × Nat × Nat → List Token → Prop
  | done {q e : Nat} : Got line [] (0, q, e) []
  | op {o : Op} {ts : List Token} {q e : Nat} : Got line (.op o :: ts) (o.ret, q, e) ts
  | word {w : Text} {ts : List Token} {q e : Nat} (h : IsWord line q e w) : Got line (.word w :: ts) (97, q, e) ts

theorem single_eq_some (h : Op.single c = some o) :
    o.ret = c ∧ o.first = c ∧ c ∈ ([124, 40, 41, 59, 38, 60] : List Byte) := by
  unfold Op.single at h
  split_ifs at h with h1 h2 h3 h4 h5 h6 <;> cases h <;> subst c <;> decide

theorem single_eq_none (h : Op.single c = none) (hc : c ≠ 62) :
    c ∉ ([124, 40, 41, 59, 38, 60] : List Byte) ∧ symbols c = false := by
  unfold Op.single at h
  split_ifs at h with h1 h2 h3 h4 h5 h6
  simp only [symbols, List.mem_cons, List.not_mem_nil, or_false, decide_eq_false_iff_not, not_or]
  exact ⟨⟨h1, h2, h3, h4, h5, h6⟩, h6, h1, hc, h5, h4, h2, h3⟩

theorem not_whitespace (h : l.dropWhile whitespace = c :: l') : whitespace c = false := by
  have hhead := List.head?_dropWhile_not whitespace l
  rw [h] at hhead
  exact hhead

section Token

variable {q : Nat}

theorem drop_succ (h : line.drop q = c :: l) : line.drop (q + 1) = l := by
  rw [← List.drop_drop, h]
  rfl

theorem lt_of_drop (h : line.drop q = c :: l) : q < line.length := by
  by_contra hge
  rw [List.drop_eq_nil_of_le (Nat.not_lt.mp hge)] at h
  cases h

theorem getD_of_drop (h : line.drop q = c :: l) : line.getD q 0 = c := by
  rw [getD_eq_head, h]
  rfl

structure TokenAt (line : List Byte) (q : Nat) : Prop where
  le : (token line q).2 ≤ line.length
  got : Got line (tokens (line.drop q)) ((token line q).1, q, (token line q).2) (tokens (line.drop (token line q).2))

theorem tokenAt_nil (hq : q ≤ line.length) (h : line.drop q = []) : TokenAt line q := by
  have hget : line.getD q 0 = 0 := by
    rw [getD_eq_head, h]
    rfl
  have htoken : token line q = (0, q) := by
    rw [token, hget]
    rfl
  refine ⟨by rw [htoken]; exact hq, ?_⟩
  rw [htoken, h, tokens_nil rfl]
  exact .done

theorem tokenAt_gt (h : line.drop q = 62 :: l) : TokenAt line q := by
  have hlt := lt_of_drop h
  have hnext := drop_succ h
  have hskip : (62 :: l).dropWhile whitespace = 62 :: l := List.dropWhile_cons_of_neg (by decide)
  have htoken : token line q = if line.getD (q + 1) 0 = 62 then (43, q + 2) else (62, q + 1) := by
    rw [token, getD_of_drop h]
    rfl
  by_cases hl : l.head? = some 62
  · obtain ⟨l', rfl⟩ := List.head?_eq_some_iff.mp hl
    rw [getD_of_drop hnext, if_pos rfl] at htoken
    refine ⟨by rw [htoken]; exact lt_of_drop hnext, ?_⟩
    rw [htoken, h, tokens_append hskip, ← drop_succ hnext]
    exact .op (o := .append)
  · have hget : line.getD (q + 1) 0 ≠ 62 := by
      rw [getD_eq_head, hnext]
      cases l with
      | nil => decide
      | cons d l => exact fun heq => hl (congrArg some heq)
    rw [if_neg hget] at htoken
    refine ⟨by rw [htoken]; exact hlt, ?_⟩
    rw [htoken, h, tokens_gt hskip hl, hnext]
    exact .op (o := .gt)

theorem tokenAt_op (h : line.drop q = c :: l) (hzero : c ≠ 0) (hc : c ≠ 62) (hwhite : whitespace c = false)
    (ho : Op.single c = some o) : TokenAt line q := by
  have hskip : (c :: l).dropWhile whitespace = c :: l := List.dropWhile_cons_of_neg (by rw [hwhite]; decide)
  obtain ⟨hret, _, hmem⟩ := single_eq_some ho
  have htoken : token line q = (c, q + 1) := by
    rw [token, getD_of_drop h]
    exact (if_neg hzero).trans (if_pos hmem)
  refine ⟨by rw [htoken]; exact lt_of_drop h, ?_⟩
  rw [htoken, h, tokens_op hskip hc ho, drop_succ h, ← hret]
  exact .op

theorem tokenAt_word (h : line.drop q = c :: l) (hzero : c ≠ 0) (hc : c ≠ 62) (hwhite : whitespace c = false)
    (ho : Op.single c = none) : TokenAt line q := by
  have hskip : (c :: l).dropWhile whitespace = c :: l := List.dropWhile_cons_of_neg (by rw [hwhite]; decide)
  obtain ⟨hmem, hsymbol⟩ := single_eq_none ho hc
  have hplain : plain c := by rw [plain, hwhite, hsymbol]; rfl
  have htoken : token line q = (97, skip line plain q) := by
    rw [token, getD_of_drop h]
    exact (if_neg hzero).trans ((if_neg hmem).trans (if_neg hc))
  have hdrop : line.drop (skip line plain q) = l.dropWhile plain := by
    rw [drop_skip, h, List.dropWhile_cons_of_pos hplain]
  have hle : skip line plain q ≤ line.length := skip_le (lt_of_drop h).le
  refine ⟨by rw [htoken]; exact hle, ?_⟩
  rw [htoken, hdrop, h, tokens_word hskip hc ho]
  refine .word ⟨hle, ?_, ?_, ?_, ?_⟩
  · rw [skip_eq, h, List.takeWhile_cons_of_pos hplain]
  · rw [hdrop, h, List.cons_append, List.takeWhile_append_dropWhile]
  · rintro d (_ | ⟨_, hd⟩)
    · exact hplain
    · exact List.mem_takeWhile_imp hd
  · have hhead := List.head?_dropWhile_not plain l
    rw [hdrop]
    intro d hd
    rw [hd] at hhead
    rw [hhead]
    decide

theorem tokenAt (hline : 0 ∉ line) (hq : q ≤ line.length)
    (hskip : (line.drop q).dropWhile whitespace = line.drop q) : TokenAt line q := by
  cases h : line.drop q with
  | nil => exact tokenAt_nil hq h
  | cons c l =>
    have hwhite : whitespace c = false := not_whitespace (hskip.trans h)
    have hzero : c ≠ 0 := by
      rintro rfl
      exact hline (List.mem_of_mem_drop (h ▸ List.mem_cons_self))
    by_cases hc : c = 62
    · subst hc
      exact tokenAt_gt h
    · cases ho : Op.single c with
      | some o => exact tokenAt_op h hzero hc hwhite ho
      | none => exact tokenAt_word h hzero hc hwhite ho

end Token

structure At (line : List Byte) (st : State) (ts : List Token) : Prop where
  le : st.ps ≤ line.length
  toks : tokens (line.drop st.ps) = ts

def looks (toks : List Byte) : List Token → Bool
  | .op o :: _ => o.first ∈ toks
  | _ => false

theorem looks_eq (hline : 0 ∉ line) (htoks : ∀ c ∈ toks, symbols c)
    (hskip : (line.drop q).dropWhile whitespace = line.drop q) :
    looks toks (tokens (line.drop q)) = decide (line.getD q 0 ≠ 0 ∧ line.getD q 0 ∈ toks) := by
  cases h : line.drop q with
  | nil =>
    have hget : line.getD q 0 = 0 := by
      rw [getD_eq_head, h]
      rfl
    rw [tokens_nil rfl, hget, decide_eq_false fun hne => hne.1 rfl]
    rfl
  | cons c l =>
    have hwhite : whitespace c = false := not_whitespace (hskip.trans h)
    have hskip : (c :: l).dropWhile whitespace = c :: l := List.dropWhile_cons_of_neg (by rw [hwhite]; decide)
    have hzero : c ≠ 0 := by
      rintro rfl
      exact hline (List.mem_of_mem_drop (h ▸ List.mem_cons_self))
    rw [getD_of_drop h, decide_eq_decide.mpr (and_iff_right hzero)]
    by_cases hc : c = 62
    · subst hc
      by_cases hl : l.head? = some 62
      · obtain ⟨l', rfl⟩ := List.head?_eq_some_iff.mp hl
        rw [tokens_append hskip]
        rfl
      · rw [tokens_gt hskip hl]
        rfl
    · cases ho : Op.single c with
      | some o =>
        rw [tokens_op hskip hc ho, looks, (single_eq_some ho).2.1]
      | none =>
        have hmem : c ∉ toks := fun hmem => absurd ((single_eq_none ho hc).2.symm.trans (htoks c hmem)) (by decide)
        rw [tokens_word hskip hc ho]
        exact (decide_eq_false hmem).symm

theorem tokens_eq_nil (h : tokens l = []) : l.dropWhile whitespace = [] := by
  rw [tokens] at h
  split at h
  · assumption
  · split at h
    · split at h <;> cases h
    · split at h <;> cases h

section Rules

variable {E : Stop → Prop} {α : Type} {R : α → State → Prop} {st : State} {ts : List Token}

theorem gettoken_bind (hline : 0 ∉ line) (h : At line st ts)
    (hf : ∀ r st' ts', Got line ts r ts' → At line st' ts' → st'.heap = st.heap → Finishes E (f r) st' R) :
    Finishes E (gettoken line >>= f) st R := by
  have hdrop : line.drop (skip line whitespace st.ps) = (line.drop st.ps).dropWhile whitespace := drop_skip
  have htoken : TokenAt line (skip line whitespace st.ps) := by
    refine tokenAt hline (skip_le h.le) ?_
    rw [hdrop, List.dropWhile_idempotent]
  have hgot := htoken.got
  rw [hdrop, tokens_dropWhile, h.toks] at hgot
  have hat : At line { st with ps := skip line whitespace (token line (skip line whitespace st.ps)).2 }
      (tokens (line.drop (token line (skip line whitespace st.ps)).2)) :=
    ⟨skip_le htoken.le, by rw [drop_skip, tokens_dropWhile]⟩
  exact hf _ _ _ hgot hat rfl

theorem peek_bind (hline : 0 ∉ line) (h : At line st ts)
    (htoks : ∀ c ∈ toks, symbols c)
    (hf : ∀ st', At line st' ts → st'.heap = st.heap → (ts = [] → st'.ps = line.length) →
      Finishes E (f (looks toks ts)) st' R) : Finishes E (peek line toks >>= f) st R := by
  have hdrop : line.drop (skip line whitespace st.ps) = (line.drop st.ps).dropWhile whitespace := drop_skip
  have htokens : tokens (line.drop (skip line whitespace st.ps)) = ts := by
    rw [hdrop, tokens_dropWhile, h.toks]
  have hlooks := looks_eq hline htoks (q := skip line whitespace st.ps) (by rw [hdrop, List.dropWhile_idempotent])
  rw [htokens] at hlooks
  have hat : At line { st with ps := skip line whitespace st.ps } ts := ⟨skip_le h.le, htokens⟩
  have hend : ts = [] → skip line whitespace st.ps = line.length := fun hnil => by
    have hrest := tokens_eq_nil (h.toks.trans hnil)
    rw [← hdrop, List.drop_eq_nil_iff] at hrest
    exact le_antisymm (skip_le h.le) hrest
  have hrest := hf _ hat rfl hend
  rw [hlooks] at hrest
  exact hrest

end Rules

end Xv6.Shell
