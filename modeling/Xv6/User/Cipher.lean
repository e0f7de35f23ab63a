import Mathlib.Data.List.TakeWhile
import Xv6.Proc.Table

namespace Xv6.Cipher

abbrev Text := List Byte

def key : Int := (90 + 14 + 57) % 26

/-- One byte of an argument, `k` being `key` in one program and `26 - key` in the other. -/
def shift (k : Int) (c : Byte) : Byte :=
  if c.toInt > 64 ∧ c.toInt < 91 then
    .ofInt 8 ((BitVec.ofInt 8 ((c.toInt - 65 + k).tmod 26)).toInt + 65)
  else if c.toInt > 96 ∧ c.toInt < 123 then
    .ofInt 8 ((BitVec.ofInt 8 ((c.toInt - 97 + k).tmod 26)).toInt + 97)
  else c

def strlen (s : Text) : Nat := (s.takeWhile (· != 0)).length

def shiftFrom (k : Int) : Nat → Nat → Text → Text
  | 0, _, s => s
  | n + 1, j, s => if j < strlen s then shiftFrom k n (j + 1) (s.modify j (shift k)) else s

def writeArg (k : Int) (arg : Text) : Text :=
  let s := shiftFrom k arg.length 0 arg
  s.take (strlen s) ++ [32]

/-- `main` with what `open` returned and the arguments after the program's name; the result is
`result.txt`, which is gone where it could not be opened. -/
def main (k fd : Int) (argv : List Text) : Except String Text :=
  if fd < 0 then .error "strdiff: cannot open/create result.txt\n"
  else .ok (argv.flatMap (writeArg k) ++ [10])

def encode := main key

def decode := main (26 - key)

def words (t : Text) : List Text :=
  (t.splitOnP fun c => c = 32 || c = 10).filter (· ≠ [])

structure IsArg (s : Text) : Prop where
  ne_nil : s ≠ []
  zero : 0 ∉ s
  space : 32 ∉ s
  newline : 10 ∉ s

def text (args : List Text) : Text := args.flatMap (· ++ [32]) ++ [10]

def Upper (c : Byte) : Prop := 65 ≤ c ∧ c ≤ 90

def Lower (c : Byte) : Prop := 97 ≤ c ∧ c ≤ 122

structure KeepsCase (f : Byte → Byte) : Prop where
  upper : ∀ c, Upper c → Upper (f c)
  lower : ∀ c, Lower c → Lower (f c)
  other : ∀ c, ¬ Upper c → ¬ Lower c → f c = c

instance : DecidablePred Upper := fun _ => inferInstanceAs (Decidable (_ ∧ _))

instance : DecidablePred Lower := fun _ => inferInstanceAs (Decidable (_ ∧ _))

theorem shift_encode : KeepsCase (shift key) :=
  ⟨by decide +kernel, by decide +kernel, by decide +kernel⟩

theorem shift_decode : KeepsCase (shift (26 - key)) :=
  ⟨by decide +kernel, by decide +kernel, by decide +kernel⟩

theorem shift_cancel : ∀ c, shift (26 - key) (shift key c) = c ∧ shift key (shift (26 - key) c) = c := by
  decide +kernel

theorem KeepsCase.eq_of_not (hf : KeepsCase f) (hu : ¬ Upper c) (hl : ¬ Lower c) (h : f d = c) :
    d = c := by
  subst h
  exact (hf.other d (fun hd => hu (hf.upper d hd)) fun hd => hl (hf.lower d hd)).symm

theorem KeepsCase.notMem_map (hf : KeepsCase f) (hu : ¬ Upper c) (hl : ¬ Lower c) (h : c ∉ s) :
    c ∉ List.map f s := by
  rw [List.mem_map]
  rintro ⟨d, hd, hfd⟩
  exact h (hf.eq_of_not hu hl hfd ▸ hd)

theorem KeepsCase.isArg (hf : KeepsCase f) (h : IsArg s) : IsArg (s.map f) where
  ne_nil := mt List.map_eq_nil_iff.1 h.ne_nil
  zero := hf.notMem_map (by decide) (by decide) h.zero
  space := hf.notMem_map (by decide) (by decide) h.space
  newline := hf.notMem_map (by decide) (by decide) h.newline

theorem strlen_eq (h : 0 ∉ s) : strlen s = s.length := by
  rw [strlen, List.takeWhile_eq_self_iff.2 fun c hc => ?_]
  rw [bne_iff_ne]
  rintro rfl
  exact h hc

section Program

variable (hk : KeepsCase (shift k))

include hk

theorem shiftFrom_eq (hdone : 0 ∉ done) (hs : 0 ∉ s) :
    shiftFrom k s.length done.length (done ++ s) = done ++ s.map (shift k) := by
  induction s generalizing done with
  | nil => rfl
  | cons c s ih =>
    have hc : 0 ∉ [c].map (shift k) := hk.notMem_map (by decide) (by decide) (by grind)
    have hlen : done.length < strlen (done ++ c :: s) := by
      rw [strlen_eq (by grind)]
      simp
    have hmod : (done ++ c :: s).modify done.length (shift k) = (done ++ [shift k c]) ++ s := by
      rw [List.modify_eq_take_drop]
      simp
    rw [List.length_cons, shiftFrom, if_pos hlen, hmod]
    have hnext := ih (by grind : 0 ∉ done ++ [shift k c]) (by grind)
    rw [List.length_append, List.length_singleton] at hnext
    rw [hnext]
    simp

theorem writeArg_eq (h : IsArg s) : writeArg k s = s.map (shift k) ++ [32] := by
  have hs : shiftFrom k s.length 0 s = s.map (shift k) := shiftFrom_eq hk List.not_mem_nil h.zero
  simp only [writeArg, hs, strlen_eq (hk.isArg h).zero, List.take_length]

theorem main_eq (hfd : 0 ≤ fd) (h : ∀ a ∈ args, IsArg a) :
    main k fd args = .ok (text (args.map (·.map (shift k)))) := by
  have hargs : args.flatMap (writeArg k) = (args.map (·.map (shift k))).flatMap (· ++ [32]) := by
    rw [List.flatMap_map]
    exact List.flatMap_congr fun a ha => writeArg_eq hk (h a ha)
  rw [main, if_neg (by omega), hargs, text]

end Program

theorem words_text (h : ∀ a ∈ args, IsArg a) : words (text args) = args := by
  induction args with
  | nil => rfl
  | cons a args ih =>
    have ha := h a List.mem_cons_self
    have hsep : ∀ c ∈ a, (c = 32 || c = 10) = false := fun c hc => by
      have := ha.space
      have := ha.newline
      grind
    have hcons : text (a :: args) = a ++ 32 :: text args := by simp [text]
    rw [words, hcons, List.splitOnP_append_cons _ _ (by decide), List.splitOnP_eq_singleton hsep,
      List.filter_append, ← words, ih fun b hb => h b (List.mem_cons_of_mem _ hb)]
    simp [ha.ne_nil]

theorem main_main (hk : KeepsCase (shift k)) (hk' : KeepsCase (shift k'))
    (hcancel : ∀ c, shift k' (shift k c) = c) (hfd : 0 ≤ fd) (h : ∀ a ∈ args, IsArg a) :
    main k' fd (words (text (args.map (·.map (shift k))))) = .ok (text args) := by
  have hshifted : ∀ a ∈ args.map (·.map (shift k)), IsArg a := by
    simp only [List.mem_map]
    rintro _ ⟨a, ha, rfl⟩
    exact hk.isArg (h a ha)
  rw [words_text hshifted, main_eq hk' hfd hshifted, List.map_map]
  simp [Function.comp_def, hcancel]

theorem encode_decode_inverse (fd fd' : Int) (hfd : 0 ≤ fd) (hfd' : 0 ≤ fd') (args : List Text)
    (h : ∀ a ∈ args, IsArg a) :
    (∃ t, encode fd args = .ok t ∧ t = text (args.map (·.map (shift key))) ∧
      decode fd' (words t) = .ok (text args)) ∧
    (∃ t, decode fd args = .ok t ∧ t = text (args.map (·.map (shift (26 - key)))) ∧
      encode fd' (words t) = .ok (text args)) ∧
    KeepsCase (shift key) ∧ KeepsCase (shift (26 - key)) :=
  ⟨⟨_, main_eq shift_encode hfd h, rfl,
      main_main shift_encode shift_decode (fun c => (shift_cancel c).1) hfd' h⟩,
    ⟨_, main_eq shift_decode hfd h, rfl,
      main_main shift_decode shift_encode (fun c => (shift_cancel c).2) hfd' h⟩,
    shift_encode, shift_decode⟩

theorem encode_decode_inverse_hi : ∃ t, encode 3 [[72, 105], [122, 33]] = .ok t ∧
    t = [77, 110, 32, 101, 33, 32, 10] ∧
    decode 3 (words t) = .ok [72, 105, 32, 122, 33, 32, 10] := by
  have h : ∀ a ∈ ([[72, 105], [122, 33]] : List Text), IsArg a := by
    simp only [List.forall_mem_cons]
    exact ⟨⟨by decide, by decide, by decide, by decide⟩, ⟨by decide, by decide, by decide, by decide⟩,
      by simp⟩
  obtain ⟨⟨t, ht, htext, hback⟩, -⟩ := encode_decode_inverse 3 3 (by decide) (by decide) _ h
  refine ⟨t, ht, htext.trans (by decide +kernel), hback.trans (by decide +kernel)⟩

end Xv6.Cipher
