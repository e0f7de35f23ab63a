import Xv6.Shell.Build

namespace Xv6.Shell

open Lib Prog

def cstring (buf : List Byte) (q : Nat) : Text := (buf.drop q).takeWhile (· ≠ 0)

structure Nulled (line buf : List Byte) : Prop where
  length : buf.length = line.length + 1
  plain : ∀ (k : Nat) (c : Byte), (line)[k]? = some c → Shell.plain c → buf[k]? = some c

def Zeroed (buf buf' : List Byte) : Prop := ∀ k : Nat, buf[k]? = some 0 → buf'[k]? = some 0

def Terminated (line buf : List Byte) (q e : Nat) (w : Text) : Prop := IsWord line q e w ∧ buf[e]? = some 0

section Writes

theorem nulled_line (line : List Byte) : Nulled line (line ++ [0]) where
  length := List.length_append
  plain := fun k c hk _ => by
    rw [List.getElem?_append_left (List.getElem?_eq_some_iff.mp hk).1]
    exact hk

theorem Nulled.set (h : Nulled line buf) (hword : IsWord line q e w) : Nulled line (buf.set e 0) where
  length := List.length_set.trans h.length
  plain := fun k c hk hc => by
    have hne : e ≠ k := by
      rintro rfl
      exact hword.stop c (by rw [List.head?_drop]; exact hk) hc
    rw [List.getElem?_set_ne hne]
    exact h.plain k c hk hc

theorem Zeroed.refl (buf : List Byte) : Zeroed buf buf := fun _ h => h

theorem Zeroed.trans (h : Zeroed buf buf') (h' : Zeroed buf' buf'') : Zeroed buf buf'' :=
  fun k hk => h' k (h k hk)

theorem zeroed_set (buf : List Byte) (e : Nat) : Zeroed buf (buf.set e 0) := fun k hk => by
  by_cases hne : e = k
  · subst hne
    rw [List.getElem?_set_self (List.getElem?_eq_some_iff.mp hk).1]
  · rw [List.getElem?_set_ne hne]
    exact hk

theorem getElem?_set_end (h : Nulled line buf) (hword : IsWord line q e w) : (buf.set e 0)[e]? = some 0 := by
  have hle := hword.le
  rw [List.getElem?_set_self (by rw [h.length]; omega)]

theorem Terminated.mono (h : Terminated line buf q e w) (hz : Zeroed buf buf') : Terminated line buf' q e w :=
  ⟨h.1, hz e h.2⟩

theorem Terminated.cstring (h : Terminated line buf q e w) (hbuf : Nulled line buf) (hline : 0 ∉ line) :
    cstring buf q = w := by
  obtain ⟨hword, hend⟩ := h
  have htake : (buf.drop q).take w.length = w := by
    apply List.ext_getElem?
    intro i
    by_cases hi : i < w.length
    · have hchar : (line)[q + i]? = some w[i] := by
        rw [← List.getElem?_drop, hword.text, List.getElem?_append_left hi, List.getElem?_eq_getElem hi]
      rw [List.getElem?_take_of_lt hi, List.getElem?_drop, List.getElem?_eq_getElem hi]
      exact hbuf.plain _ _ hchar (hword.plain _ (List.getElem_mem hi))
    · rw [List.getElem?_take_eq_none (by omega), List.getElem?_eq_none (by omega)]
  obtain ⟨hlt, hzero⟩ := List.getElem?_eq_some_iff.mp hend
  have hdrop : buf.drop q = w ++ 0 :: buf.drop (e + 1) := by
    rw [← List.take_append_drop w.length (buf.drop q), htake, List.drop_drop, ← hword.end_eq,
      List.drop_eq_getElem_cons hlt, hzero]
  have hnonzero : ∀ c ∈ w, decide (c ≠ 0) = true := by
    intro c hc
    refine decide_eq_true ?_
    rintro rfl
    refine hline (List.mem_of_mem_drop (i := q) ?_)
    rw [hword.text]
    exact List.mem_append_left _ hc
  rw [Shell.cstring, hdrop, List.takeWhile_append_of_pos hnonzero]
  simp

end Writes

theorem Built.mono (h : Built S heap p c)
    (hS : ∀ q e w, S q e w → S' q e w) : Built S' heap p c := by
  induction h with
  | exec hp hargs =>
    refine .exec hp ⟨fun i w hw => ?_, hargs.null⟩
    obtain ⟨q, e, hq, he, hword⟩ := hargs.word i w hw
    exact ⟨q, e, hq, he, hS _ _ _ hword⟩
  | redir hp hlt hword _ ih => exact .redir hp hlt (hS _ _ _ hword) ih
  | pipe hp hl hr _ _ ihl ihr => exact .pipe hp hl hr ihl ihr
  | list hp hl hr _ _ ihl ihr => exact .list hp hl hr ihl ihr
  | back hp hlt _ ih => exact .back hp hlt ih

section Nul

theorem mem_takeWhile_of_le {l : List (Fin 10)} {p : Fin 10 → Bool} (hl : l.Pairwise (· < ·)) {i : Fin 10}
    (hi : i ∈ l) (hp : ∀ j ≤ i, p j) : i ∈ l.takeWhile p := by
  induction l with
  | nil => cases hi
  | cons a l ih =>
    obtain ⟨hlt, hl⟩ := List.pairwise_cons.mp hl
    rcases List.mem_cons.mp hi with rfl | hi
    · rw [List.takeWhile_cons_of_pos (hp i le_rfl)]
      exact List.mem_cons_self
    · rw [List.takeWhile_cons_of_pos (hp a (hlt i hi).le)]
      exact List.mem_cons_of_mem _ (ih hl hi)

theorem isSome_argv (h : Args (IsWord line) argv eargv ws) (i : Fin 10) : (argv i).isSome ↔ i.val < ws.length := by
  constructor
  · intro hsome
    by_contra hge
    rw [h.null i (Nat.not_lt.mp hge)] at hsome
    cases hsome
  · intro hlt
    obtain ⟨q, e, hq, _⟩ := h.word i _ (List.getElem?_eq_getElem hlt)
    rw [hq]
    rfl

theorem nulArgs_spec (h : Args (IsWord line) argv eargv ws) (hbuf : Nulled line buf) :
    Finishes (fun _ => False) (nulArgs argv eargv) buf fun _ buf' =>
      Nulled line buf' ∧ Zeroed buf buf' ∧ Args (Terminated line buf') argv eargv ws := by
  obtain ⟨l, hl⟩ : ∃ l, l = (List.finRange 10).takeWhile fun i => (argv i).isSome := ⟨_, rfl⟩
  have hwords : ∀ i ∈ l, ∃ q e w, eargv i = some e ∧ IsWord line q e w := by
    intro i hi
    rw [hl] at hi
    have hlt := (isSome_argv h i).mp (List.mem_takeWhile_imp (p := fun i => (argv i).isSome) hi)
    obtain ⟨q, e, _, he, hword⟩ := h.word i _ (List.getElem?_eq_getElem hlt)
    exact ⟨q, e, _, he, hword⟩
  have hloop := Finishes.forM (E := fun _ => False) (s := buf) (f := nulArg eargv)
    (I := fun l' (b : List Byte) => (∀ i ∈ l', i ∈ l) ∧ Nulled line b ∧ Zeroed buf b ∧
      ∀ i ∈ l, i ∈ l' ∨ ∀ e, eargv i = some e → b[e]? = some 0) ?_ l
    ⟨fun _ hi => hi, hbuf, Zeroed.refl buf, fun _ hi => .inl hi⟩
  · unfold nulArgs
    rw [← hl]
    refine hloop.mono ?_
    rintro _ b ⟨_, hnulled, hzeroed, hend⟩
    refine ⟨hnulled, hzeroed, fun i w hw => ?_, h.null⟩
    obtain ⟨q, e, hq, he, hword⟩ := h.word i w hw
    have hmem : i ∈ l := by
      rw [hl]
      have hlt := (List.getElem?_eq_some_iff.mp hw).1
      exact mem_takeWhile_of_le (List.pairwise_lt_finRange 10) (List.mem_finRange i) fun j hj =>
        (isSome_argv h j).mpr (lt_of_le_of_lt hj hlt)
    exact ⟨q, e, hq, he, hword, ((hend i hmem).resolve_left List.not_mem_nil) e he⟩
  · rintro i l' b ⟨hsub, hnulled, hzeroed, hend⟩
    obtain ⟨q, e, w, he, hword⟩ := hwords i (hsub i List.mem_cons_self)
    unfold nulArg
    rw [he]
    refine ⟨fun j hj => hsub j (List.mem_cons_of_mem _ hj), hnulled.set hword, hzeroed.trans (zeroed_set b e),
      fun j hj => ?_⟩
    rcases hend j hj with hmem | hdone
    · rcases List.mem_cons.mp hmem with rfl | hmem
      · right
        intro e' he'
        cases he.symm.trans he'
        exact getElem?_set_end hnulled hword
      · exact .inl hmem
    · exact .inr fun e' he' => zeroed_set b e _ (hdone e' he')

theorem nulterminate_spec (h : Built (IsWord line) heap p c) (hfuel : p < fuel)
    (hbuf : Nulled line buf) :
    Finishes (fun _ => False) (nulterminate heap fuel p) buf fun _ buf' =>
      Nulled line buf' ∧ Zeroed buf buf' ∧ Built (Terminated line buf') heap p c := by
  induction h generalizing fuel buf with
  | exec hp hargs =>
    obtain ⟨fuel, rfl⟩ : ∃ n, fuel = n + 1 := ⟨fuel - 1, by omega⟩
    unfold nulterminate
    rw [hp]
    refine (nulArgs_spec hargs hbuf).mono ?_
    rintro _ buf' ⟨hnulled, hzeroed, hargs'⟩
    exact ⟨hnulled, hzeroed, .exec hp hargs'⟩
  | @redir _ _ _ e _ _ _ _ hp hlt hword _ ih =>
    obtain ⟨fuel, rfl⟩ : ∃ n, fuel = n + 1 := ⟨fuel - 1, by omega⟩
    unfold nulterminate
    rw [hp]
    refine (ih (by omega) hbuf).bind ?_
    rintro _ buf' ⟨hnulled, hzeroed, hsub⟩
    have hset := zeroed_set buf' e
    refine ⟨hnulled.set hword, hzeroed.trans hset, ?_⟩
    exact .redir hp hlt ⟨hword, getElem?_set_end hnulled hword⟩ (hsub.mono fun _ _ _ ht => ht.mono hset)
  | pipe hp hl hr _ _ ihl ihr =>
    obtain ⟨fuel, rfl⟩ : ∃ n, fuel = n + 1 := ⟨fuel - 1, by omega⟩
    unfold nulterminate
    rw [hp]
    refine (ihl (by omega) hbuf).bind ?_
    rintro _ buf₁ ⟨hnulled₁, hzeroed₁, hleft⟩
    refine (ihr (by omega) hnulled₁).mono ?_
    rintro _ buf₂ ⟨hnulled₂, hzeroed₂, hright⟩
    refine ⟨hnulled₂, hzeroed₁.trans hzeroed₂, ?_⟩
    exact .pipe hp hl hr (hleft.mono fun _ _ _ ht => ht.mono hzeroed₂) hright
  | list hp hl hr _ _ ihl ihr =>
    obtain ⟨fuel, rfl⟩ : ∃ n, fuel = n + 1 := ⟨fuel - 1, by omega⟩
    unfold nulterminate
    rw [hp]
    refine (ihl (by omega) hbuf).bind ?_
    rintro _ buf₁ ⟨hnulled₁, hzeroed₁, hleft⟩
    refine (ihr (by omega) hnulled₁).mono ?_
    rintro _ buf₂ ⟨hnulled₂, hzeroed₂, hright⟩
    refine ⟨hnulled₂, hzeroed₁.trans hzeroed₂, ?_⟩
    exact .list hp hl hr (hleft.mono fun _ _ _ ht => ht.mono hzeroed₂) hright
  | back hp hlt _ ih =>
    obtain ⟨fuel, rfl⟩ : ∃ n, fuel = n + 1 := ⟨fuel - 1, by omega⟩
    unfold nulterminate
    rw [hp]
    refine (ih (by omega) hbuf).mono ?_
    rintro _ buf' ⟨hnulled, hzeroed, hsub⟩
    exact ⟨hnulled, hzeroed, .back hp hlt hsub⟩

end Nul

def Derives (line : List Byte) (d : Deriv .line) : Prop := d.yield = tokens line ∧ d.Short

section Whole

theorem parse_sound (hline : 0 ∉ line) (hfuel : 4 * line.length + 4 ≤ fuel) :
    Finishes IsPanic (parse line fuel) ⟨0, []⟩ fun _ _ => ∃ d, Derives line d := by
  have hstart : At line ⟨0, []⟩ (tokens line) := ⟨Nat.zero_le _, rfl⟩
  have hlen := length_tokens_le line
  refine ((accepts hline fuel).1 .line ⟨0, []⟩ _ hstart (by simp only [depth]; omega)).bind ?_
  rintro cmd st ⟨d, rest, hd, hyield, h⟩
  refine peek_bind hline h (by decide) fun st₁ h₁ _ _ => .get ?_
  split
  · exact .throw ⟨_, rfl⟩
  · next hend =>
    have hrest := h₁.toks
    rw [not_not.mp hend, List.drop_length, tokens_nil rfl] at hrest
    rw [← hrest, List.append_nil] at hyield
    exact .pure ⟨d, hyield.symm, hd⟩

theorem parse_complete (hline : 0 ∉ line) (hfuel : 4 * line.length + 4 ≤ fuel) (hd : Derives line d) :
    Finishes (fun _ => False) (parse line fuel) ⟨0, []⟩ fun p st => Built (IsWord line) st.heap p d.denote := by
  have hstart : At line ⟨0, []⟩ (d.yield ++ []) := by
    rw [List.append_nil, hd.1]
    exact ⟨Nat.zero_le _, rfl⟩
  have hlen := hstart.length_le
  refine (builds hline d hd.2 fuel hstart (by simp only [depth]; omega) trivial).bind ?_
  rintro cmd st ⟨h, _, hbuilt⟩
  refine peek_bind hline h (by decide) fun st₁ h₁ heap₁ hend => .get ?_
  rw [if_neg (not_not.mpr (hend rfl))]
  exact .pure (heap₁ ▸ hbuilt)

theorem parsecmd_complete (hline : 0 ∉ line) (hfuel : 4 * line.length + 4 ≤ fuel)
    (hd : Derives line d) : ∃ p heap buf, parsecmd line fuel = .ok (p, heap, buf) ∧
      Built (fun q _ w => cstring buf q = w) heap p d.denote := by
  obtain ⟨p, st, hparse, hbuilt⟩ := (parse_complete hline hfuel hd).exists_ok fun _ => id
  obtain ⟨_, buf, hnul, hnulled, _, hterm⟩ :=
    (nulterminate_spec hbuilt hbuilt.lt (nulled_line line)).exists_ok fun _ => id
  refine ⟨p, st.heap, buf, ?_, hterm.mono fun q e w ht => ht.cstring hnulled hline⟩
  unfold parsecmd
  rw [hparse]
  change (nulterminate st.heap st.heap.length p (line ++ [0]) >>= _) = _
  rw [hnul]
  rfl

theorem parsecmd_error (hline : 0 ∉ line) (hfuel : 4 * line.length + 4 ≤ fuel)
    (hnone : ¬ ∃ d, Derives line d) : ∃ s, parsecmd line fuel = .error (.panic s) := by
  have hsound := parse_sound hline hfuel
  cases hparse : parse line fuel ⟨0, []⟩ with
  | ok r => exact absurd (hsound.of_ok hparse) hnone
  | error e =>
    obtain ⟨s, rfl⟩ := hsound.of_error hparse
    refine ⟨s, ?_⟩
    rw [parsecmd, hparse]
    rfl

end Whole

/-- `parsecmd` ends on every line.  It returns a tree for the lines that derive from the grammar and
panics on all others, and the tree, with its strings as C reads them, is what the derivation stands for. -/
theorem parsecmd_grammar (line : List Byte) (hline : 0 ∉ line) (fuel : Nat) (hfuel : 4 * line.length + 4 ≤ fuel) :
    ((∃ r, parsecmd line fuel = .ok r) ↔ ∃ d, Derives line d) ∧
    (∀ e, parsecmd line fuel = .error e → ∃ s, e = .panic s) ∧
    ∀ p heap buf, parsecmd line fuel = .ok (p, heap, buf) → ∀ d, Derives line d →
      Built (fun q _ w => cstring buf q = w) heap p d.denote := by
  by_cases h : ∃ d, Derives line d
  · refine ⟨iff_of_true ?_ h, fun e he => ?_, fun p heap buf hok d hd => ?_⟩
    · obtain ⟨p, heap, buf, hok, _⟩ := parsecmd_complete hline hfuel h.choose_spec
      exact ⟨_, hok⟩
    · obtain ⟨p, heap, buf, hok, _⟩ := parsecmd_complete hline hfuel h.choose_spec
      cases hok.symm.trans he
    · obtain ⟨p', heap', buf', hok', hbuilt⟩ := parsecmd_complete hline hfuel hd
      cases hok.symm.trans hok'
      exact hbuilt
  · obtain ⟨s, hs⟩ := parsecmd_error hline hfuel h
    refine ⟨iff_of_false ?_ h, fun e he => ?_, fun p heap buf hok => ?_⟩
    · rintro ⟨r, hr⟩
      cases hs.symm.trans hr
    · cases hs.symm.trans he
      exact ⟨s, rfl⟩
    · cases hs.symm.trans hok

theorem derives_redir : Derives [97, 62, 98] (.line (.pipe (.exec [] [([97], [⟨.output, [98]⟩])])) 0) := by
  have htokens : tokens [97, 62, 98] = [.word [97], .op .gt, .word [98]] := by
    have hend : tokens [98] = [.word [98]] := (tokens_word rfl (by decide) rfl).trans (congrArg _ (tokens_nil rfl))
    have hredir : tokens [62, 98] = [.op .gt, .word [98]] := (tokens_gt rfl (by decide)).trans (congrArg _ hend)
    exact (tokens_word rfl (by decide) rfl).trans (congrArg _ hredir)
  exact ⟨htokens.symm, (by decide : 1 < 10)⟩

theorem parsecmd_grammar_redir : ∃ p heap buf, parsecmd [97, 62, 98] 16 = .ok (p, heap, buf) ∧
    Built (fun q _ w => cstring buf q = w) heap p (.redir (.exec [[97]]) [98] 0x201 1) := by
  obtain ⟨hiff, _, hbuilt⟩ := parsecmd_grammar [97, 62, 98] (by decide) 16 (by decide)
  obtain ⟨⟨p, heap, buf⟩, hok⟩ := hiff.mpr ⟨_, derives_redir⟩
  exact ⟨p, heap, buf, hok, hbuilt p heap buf hok _ derives_redir⟩

end Xv6.Shell
