import Mathlib.Data.List.TakeWhile
import Xv6.User.Match

namespace Xv6.Grep

def cstr (buf : Text) (p : Nat) : Text := (buf.drop p).takeWhile (· != 0)

def strchr (buf : Text) (p : Nat) (c : Byte) : Option Nat := ((cstr buf p).findIdx? (· == c)).map (p + ·)

def greplines (pattern : Text) : Nat → Text → Nat → Text → Option (Text × Nat × Text)
  | 0, _, _, _ => none
  | fuel + 1, buf, p, out =>
    match strchr buf p 10 with
    | none => some (buf, p, out)
    | some q =>
      let buf := buf.set q 0
      if matchText pattern (cstr buf p) then
        let buf := buf.set q 10
        greplines pattern fuel buf (q + 1) (out ++ (buf.drop p).take (q + 1 - p))
      else greplines pattern fuel buf (q + 1) out

def grepFrom (pattern : Text) : Text → Nat → Text → List Text → Option Text
  | _, _, out, [] => some out
  | buf, m, out, r :: rs => do
    let buf := buf.take m ++ r ++ buf.drop (m + r.length)
    let m := m + r.length
    let buf := buf.set m 0
    let (buf, p, out) ← greplines pattern buf.length buf 0 out
    let m := if p = 0 then 0 else m
    if m > 0 then
      let m := m - p
      grepFrom pattern ((buf.drop p).take m ++ buf.drop m) m out rs
    else grepFrom pattern buf m out rs

def grep (pattern buf : Text) (rs : List Text) : Option Text := grepFrom pattern buf 0 [] rs

def complete (s : Text) : List Text := (s.splitOnP (· == 10)).dropLast

def last (s : Text) : Text := (s.splitOnP (· == 10)).getLast (List.splitOnP_ne_nil _ s)

def printed (pattern s : Text) : Text := ((complete s).filter (matchText pattern)).flatMap (· ++ [10])

def matching (pattern s : Text) : Text :=
  printed pattern s ++ if last s ≠ [] ∧ matchText pattern (last s) then last s else []

def carry (s : Text) : Text := if 10 ∈ s then last s else []

def Fits : Text → List Text → Prop
  | _, [] => True
  | part, r :: rs => r ≠ [] ∧ (part ++ r).length ≤ 1023 ∧ Fits (carry (part ++ r)) rs

section Lines

variable {s l : Text}

theorem line_induction {P : Text → Prop} (rest : ∀ s, 10 ∉ s → P s)
    (line : ∀ l s, 10 ∉ l → P s → P (l ++ 10 :: s)) (s : Text) : P s := by
  induction h : s.length using Nat.strong_induction_on generalizing s with
  | _ n ih =>
    by_cases hs : 10 ∈ s
    · obtain ⟨l, t, rfl, hl⟩ := List.eq_append_cons_of_mem hs
      exact line l t hl (ih t.length (by simp at h; omega) t rfl)
    · exact rest s hs

theorem splitOnP_rest (hs : 10 ∉ s) : s.splitOnP (· == 10) = [s] :=
  List.splitOnP_eq_singleton (by grind)

theorem splitOnP_line (hl : 10 ∉ l) (s : Text) :
    (l ++ 10 :: s).splitOnP (· == 10) = l :: s.splitOnP (· == 10) := by
  rw [List.splitOnP_append_cons _ _ (by decide), splitOnP_rest hl]
  rfl

theorem complete_line (hl : 10 ∉ l) (s : Text) : complete (l ++ 10 :: s) = l :: complete s := by
  rw [complete, splitOnP_line hl, List.dropLast_cons_of_ne_nil (List.splitOnP_ne_nil _ s), complete]

theorem last_line (hl : 10 ∉ l) (s : Text) : last (l ++ 10 :: s) = last s := by
  simp only [last, splitOnP_line hl]
  exact List.getLast_cons (List.splitOnP_ne_nil _ s)

theorem complete_rest (hs : 10 ∉ s) : complete s = [] := by
  rw [complete, splitOnP_rest hs]
  rfl

theorem last_rest (hs : 10 ∉ s) : last s = s := by
  simp only [last, splitOnP_rest hs, List.getLast_singleton]

theorem printed_line (hl : 10 ∉ l) (s : Text) : printed pattern (l ++ 10 :: s) =
    (if matchText pattern l then l ++ [10] else []) ++ printed pattern s := by
  rw [printed, complete_line hl, List.filter_cons]
  split <;> rfl

theorem printed_rest (hs : 10 ∉ s) : printed pattern s = [] := by
  rw [printed, complete_rest hs]
  rfl

theorem printed_append (s t : Text) :
    printed pattern (s ++ t) = printed pattern s ++ printed pattern (last s ++ t) := by
  induction s using line_induction with
  | rest s hs => rw [printed_rest hs, last_rest hs, List.nil_append]
  | line l s hl ih =>
    rw [List.append_assoc, List.cons_append, printed_line hl, ih, printed_line hl, last_line hl,
      List.append_assoc]

theorem last_append (s t : Text) : last (s ++ t) = last (last s ++ t) := by
  induction s using line_induction with
  | rest s hs => rw [last_rest hs]
  | line l s hl ih => rw [List.append_assoc, List.cons_append, last_line hl, ih, last_line hl]

theorem notMem_last (h : c ∉ s) : c ∉ last s := by
  induction s using line_induction with
  | rest s hs => rwa [last_rest hs]
  | line l s hl ih =>
    rw [last_line hl]
    exact ih fun hc => h (List.mem_append_right _ (List.mem_cons_of_mem _ hc))

theorem length_last_le (s : Text) : (last s).length ≤ s.length := by
  induction s using line_induction with
  | rest s hs => rw [last_rest hs]
  | line l s hl ih =>
    rw [last_line hl, List.length_append, List.length_cons]
    omega

theorem length_last_lt (h : 10 ∈ s) : (last s).length < s.length := by
  obtain ⟨l, t, rfl, hl⟩ := List.eq_append_cons_of_mem h
  have := length_last_le t
  rw [last_line hl, List.length_append, List.length_cons]
  omega

theorem newline_notMem_last (s : Text) : 10 ∉ last s := by
  induction s using line_induction with
  | rest s hs => rwa [last_rest hs]
  | line l s hl ih => rwa [last_line hl]

theorem length_printed_nil (s : Text) : (printed [] s).length + (last s).length = s.length := by
  induction s using line_induction with
  | rest s hs => rw [printed_rest hs, last_rest hs, List.length_nil, Nat.zero_add]
  | line l s hl ih =>
    have hall : matchText [] l = true := by cases l <;> rfl
    rw [printed_line hl, last_line hl, if_pos hall]
    simp only [List.length_append, List.length_cons, List.length_nil]
    omega

theorem last_eq_nil : last s = [] ↔ s = [] ∨ s.getLast? = some 10 := by
  induction s using line_induction with
  | rest s hs =>
    rw [last_rest hs]
    exact ⟨.inl, fun h => h.elim id fun h => (hs (List.mem_of_getLast? h)).elim⟩
  | line l s hl ih =>
    rw [last_line hl, ih]
    cases s <;> simp

end Lines

section Buffer

variable {done b rest out : Text}

theorem cstr_eq (hb : 0 ∉ b) : cstr (done ++ b ++ 0 :: rest) done.length = b := by
  rw [cstr, List.append_assoc, List.drop_left, List.takeWhile_append_of_pos (by grind),
    List.takeWhile_cons_of_neg (by decide), List.append_nil]

theorem greplines_eq (hb : 0 ∉ b) (hfuel : b.length < fuel) : ∃ done',
    greplines pattern fuel (done ++ b ++ 0 :: rest) done.length out =
      some (done' ++ last b ++ 0 :: rest, done'.length, out ++ printed pattern b) ∧
    (done' ++ last b).length = (done ++ b).length := by
  induction b using line_induction generalizing fuel done out with
  | rest b hnl =>
    obtain _ | fuel := fuel
    · omega
    have hnone : strchr (done ++ b ++ 0 :: rest) done.length 10 = none := by
      rw [strchr, cstr_eq hb, Option.map_eq_none_iff, List.findIdx?_eq_none_iff]
      grind
    rw [greplines, hnone, last_rest hnl, printed_rest hnl, List.append_nil]
    exact ⟨done, rfl, rfl⟩
  | line l b hl ih =>
    obtain _ | fuel := fuel
    · omega
    have hsome : strchr (done ++ (l ++ 10 :: b) ++ 0 :: rest) done.length 10 = some (done.length + l.length) := by
      have hfirst : l.findIdx? (· == 10) = none := List.findIdx?_eq_none_iff.2 (by grind)
      rw [strchr, cstr_eq hb, List.findIdx?_append, hfirst, List.findIdx?_cons]
      simp
    have hset (d e : Byte) : (done ++ l ++ d :: (b ++ 0 :: rest)).set (done.length + l.length) e =
        done ++ l ++ e :: (b ++ 0 :: rest) := by
      rw [← List.length_append, List.set_append_right _ _ le_rfl]
      simp
    have hbuf : done ++ (l ++ 10 :: b) ++ 0 :: rest = done ++ l ++ 10 :: (b ++ 0 :: rest) := by simp
    have hline : cstr (done ++ l ++ 0 :: (b ++ 0 :: rest)) done.length = l := cstr_eq (by grind)
    have hnext (d : Byte) (out : Text) := @ih (done ++ l ++ [d]) out fuel (by grind) (by simp at hfuel; omega)
    rw [greplines, hsome, hbuf]
    simp only [hset, hline]
    rw [last_line hl, printed_line hl]
    split
    case isTrue hmatch =>
      have hwrite : ((done ++ l ++ 10 :: (b ++ 0 :: rest)).drop done.length).take
          (done.length + l.length + 1 - done.length) = l ++ [10] := by
        rw [List.append_assoc, List.drop_left, Nat.add_assoc, Nat.add_sub_cancel_left, List.take_append]
        simp
      rw [hwrite]
      obtain ⟨done', h, hlen⟩ := hnext 10 (out ++ (l ++ [10]))
      refine ⟨done', ?_, by simpa using hlen⟩
      simpa [Nat.add_assoc] using h
    case isFalse hmatch =>
      obtain ⟨done', h, hlen⟩ := hnext 0 out
      refine ⟨done', ?_, by simpa using hlen⟩
      simpa [Nat.add_assoc] using h

theorem set_end (done : Text) (d e : Byte) (rest : Text) :
    (done ++ d :: rest).set done.length e = done ++ e :: rest := by
  simp

def outputs (pattern : Text) : Text → List Text → Text
  | _, [] => []
  | part, r :: rs => printed pattern (part ++ r) ++ outputs pattern (carry (part ++ r)) rs

theorem grepFrom_eq (hlen : (part ++ rest).length = 1024) (hpart : 0 ∉ part) (hrs : ∀ r ∈ rs, 0 ∉ r)
    (hfits : Fits part rs) :
    grepFrom pattern (part ++ rest) part.length out rs = some (out ++ outputs pattern part rs) := by
  induction rs generalizing part rest out with
  | nil => simp [grepFrom, outputs]
  | cons r rs ih =>
    obtain ⟨-, hroom, hfits⟩ := hfits
    have hb : 0 ∉ part ++ r := by grind
    rw [List.length_append] at hlen hroom
    obtain ⟨d, rest', hrest⟩ : ∃ d rest', rest.drop r.length = d :: rest' :=
      List.exists_cons_of_length_pos (by rw [List.length_drop]; omega)
    have hread : ((part ++ rest).take part.length ++ r ++ (part ++ rest).drop (part.length + r.length)).set
        (part.length + r.length) 0 = [] ++ (part ++ r) ++ 0 :: rest' := by
      rw [List.take_left, ← List.drop_drop, List.drop_left, hrest, ← List.length_append, set_end]
      rfl
    have hsize : ([] ++ (part ++ r) ++ 0 :: rest').length = 1024 := by
      have := congrArg List.length hrest
      simp at this ⊢
      omega
    obtain ⟨done, hlines, hdone⟩ := @greplines_eq [] (part ++ r) rest' out 1024 pattern hb
      (by rw [List.length_append]; omega)
    rw [List.length_nil] at hlines
    rw [grepFrom, hread, hsize]
    simp only [hlines, Option.bind_eq_bind, Option.bind_some, outputs, ← List.append_assoc out]
    rw [List.nil_append, List.length_append] at hdone
    have hnext := fun r hr => hrs r (List.mem_cons_of_mem _ hr)
    by_cases hnl : 10 ∈ part ++ r
    · have hshort := length_last_lt hnl
      rw [List.length_append] at hdone hshort
      have hm : (if done.length = 0 then 0 else part.length + r.length) = part.length + r.length :=
        if_neg (by omega)
      have hkeep : part.length + r.length - done.length = (last (part ++ r)).length := by omega
      rw [hm, if_pos (by omega)]
      rw [carry, if_pos hnl] at hfits ⊢
      have hmoved : ((done ++ last (part ++ r) ++ 0 :: rest').drop done.length).take
          (last (part ++ r)).length = last (part ++ r) := by
        rw [List.append_assoc, List.drop_left, List.take_left]
      rw [hkeep, hmoved]
      exact ih (by simp at hsize hdone ⊢; omega) (notMem_last hb) hnext hfits
    · rw [last_rest hnl] at hdone
      have hnil : done = [] := List.eq_nil_of_length_eq_zero (by omega)
      rw [carry, if_neg hnl] at hfits ⊢
      rw [hnil]
      exact ih (by simpa [last_rest hnl] using hsize) (by simp) hnext hfits

end Buffer

theorem outputs_eq (hpart : 10 ∉ part) (h : ∀ r ∈ rs, 10 ∈ r) :
    outputs pattern part rs = printed pattern (part ++ rs.flatten) := by
  induction rs generalizing part with
  | nil => rw [outputs, List.flatten_nil, List.append_nil, printed_rest hpart]
  | cons r rs ih =>
    have hnl : 10 ∈ part ++ r := List.mem_append_right _ (h r List.mem_cons_self)
    rw [outputs, carry, if_pos hnl, ih (newline_notMem_last _) fun r hr => h r (List.mem_cons_of_mem _ hr),
      List.flatten_cons, ← List.append_assoc, printed_append (part ++ r)]

theorem length_outputs_le (part : Text) (rs : List Text) :
    (outputs [] part rs).length ≤ part.length + rs.flatten.length := by
  induction rs generalizing part with
  | nil => exact Nat.zero_le _
  | cons r rs ih =>
    have hlines := length_printed_nil (part ++ r)
    have hrest := ih (carry (part ++ r))
    have hkeep : (carry (part ++ r)).length ≤ (last (part ++ r)).length := by
      rw [carry]
      split
      · exact le_rfl
      · exact Nat.zero_le _
    rw [outputs, List.length_append, List.flatten_cons, List.length_append]
    rw [List.length_append] at hlines
    omega

theorem newline_of_outputs (hpart : 10 ∉ part) (hne : ∀ r ∈ rs, r ≠ [])
    (h : (outputs [] part rs).length = part.length + rs.flatten.length) :
    (∀ r ∈ rs, 10 ∈ r) ∧ last (part ++ rs.flatten) = [] := by
  induction rs generalizing part with
  | nil =>
    obtain rfl : part = [] := List.eq_nil_of_length_eq_zero h.symm
    exact ⟨by simp, rfl⟩
  | cons r rs ih =>
    have hlines := length_printed_nil (part ++ r)
    have hrest := length_outputs_le (carry (part ++ r)) rs
    have hpos : 0 < r.length := List.length_pos_iff.2 (hne r List.mem_cons_self)
    rw [outputs, List.length_append, List.flatten_cons, List.length_append] at h
    rw [List.length_append] at hlines
    have hnl : 10 ∈ part ++ r := by
      by_contra hnl
      rw [printed_rest hnl, carry, if_neg hnl] at *
      simp at h hrest
      omega
    rw [carry, if_pos hnl] at h
    obtain ⟨hall, hlast⟩ := ih (newline_notMem_last _) (fun r hr => hne r (List.mem_cons_of_mem _ hr))
      (by omega : _ = (last (part ++ r)).length + _)
    refine ⟨List.forall_mem_cons.2 ⟨(List.mem_append.1 hnl).resolve_left hpart, hall⟩, ?_⟩
    rw [List.flatten_cons, ← List.append_assoc, last_append, hlast]

theorem Fits.ne_nil (h : Fits part rs) : ∀ r ∈ rs, r ≠ [] := by
  induction rs generalizing part with
  | nil => simp
  | cons r rs ih => exact List.forall_mem_cons.2 ⟨h.1, ih h.2.2⟩

theorem length_matching_nil (s : Text) : (matching [] s).length = s.length := by
  have hall : matchText [] (last s) = true := by cases last s <;> rfl
  have hlines := length_printed_nil s
  rw [matching, List.length_append]
  by_cases hlast : last s = []
  · rw [if_neg (fun h => h.1 hlast)]
    simpa [hlast] using hlines
  · rw [if_pos ⟨hlast, hall⟩, hlines]

theorem grep_iff_newlines (buf : Text) (hbuf : buf.length = 1024) (rs : List Text)
    (hzero : ∀ r ∈ rs, 0 ∉ r) (hfits : Fits [] rs) :
    (∀ pattern, grep pattern buf rs = some (matching pattern rs.flatten)) ↔
      (∀ r ∈ rs, 10 ∈ r) ∧ (rs.flatten = [] ∨ rs.flatten.getLast? = some 10) := by
  have hgrep (pattern : Text) : grep pattern buf rs = some (outputs pattern [] rs) :=
    @grepFrom_eq buf [] [] rs pattern hbuf List.not_mem_nil hzero hfits
  simp only [hgrep, Option.some.injEq, ← last_eq_nil]
  constructor
  · intro h
    have hlen := congrArg List.length (h [])
    rw [length_matching_nil] at hlen
    exact newline_of_outputs List.not_mem_nil hfits.ne_nil (by simpa using hlen)
  · rintro ⟨hall, hlast⟩ pattern
    rw [outputs_eq List.not_mem_nil hall, matching, if_neg (fun h => h.1 hlast), List.append_nil]
    rfl

theorem grep_iff_newlines_split :
    grep [99] (List.replicate 1024 0) [[97, 10, 98], [99, 10]] = some [98, 99, 10] := by
  have hall := (grep_iff_newlines (List.replicate 1024 0) List.length_replicate [[97, 10, 98], [99, 10]]
    (by decide) ⟨by decide, by decide, by decide, by decide, trivial⟩).2 (by decide)
  exact (hall [99]).trans (by decide)

theorem grep_split_line : let buf := List.replicate 1024 (0 : Byte)
    grep [97] buf [[97, 98, 10]] = some [97, 98, 10] ∧ grep [97] buf [[97], [98, 10]] = some [] ∧
      grep [97] buf [[97, 98]] = some [] ∧ matching [97] [97, 98] = [97, 98] := by
  decide +kernel

end Xv6.Grep
