import Xv6.Proc.Table

namespace Xv6.Disk

abbrev Block := Fin 512 → Byte

namespace Block

def zero : Block := fun _ => 0

def word (b : Block) (i : Fin 128) : Word :=
  b ⟨4 * i + 3, by omega⟩ ++ b ⟨4 * i + 2, by omega⟩ ++ b ⟨4 * i + 1, by omega⟩ ++ b ⟨4 * i, by omega⟩

def setWord (b : Block) (i : Fin 128) (w : Word) : Block := fun j =>
  if j.val / 4 = i then w.extractLsb' (8 * (j.val % 4)) 8 else b j

theorem word_setWord_self (b : Block) (i : Fin 128) (w : Word) : (b.setWord i w).word i = w := by
  have hbyte : ∀ k (hk : k < 4), b.setWord i w ⟨4 * i + k, by omega⟩ = w.extractLsb' (8 * k) 8 := by
    intro k hk
    have hdiv : (4 * i.val + k) / 4 = i := by omega
    have hmod : (4 * i.val + k) % 4 = k := by omega
    simp only [setWord, hdiv, hmod, if_true]
  have h0 : b.setWord i w ⟨4 * i, by omega⟩ = w.extractLsb' 0 8 := hbyte 0 (by omega)
  rw [word, hbyte 3 (by omega), hbyte 2 (by omega), hbyte 1 (by omega), h0]
  ext k hk
  simp only [BitVec.getElem_append, BitVec.getElem_extractLsb']
  rw [← BitVec.getLsbD_eq_getElem]
  split_ifs <;> congr 1 <;> omega

theorem word_setWord_of_ne {b : Block} {i j : Fin 128} {w : Word} (h : j ≠ i) :
    (b.setWord i w).word j = b.word j := by
  have hbyte : ∀ k (hk : k < 4), b.setWord i w ⟨4 * j + k, by omega⟩ = b ⟨4 * j + k, by omega⟩ := by
    intro k hk
    have hdiv : (4 * j.val + k) / 4 ≠ i := by omega
    simp only [setWord, if_neg hdiv]
  have h0 : b.setWord i w ⟨4 * j, by omega⟩ = b ⟨4 * j, by omega⟩ := hbyte 0 (by omega)
  rw [word, hbyte 3 (by omega), hbyte 2 (by omega), hbyte 1 (by omega), h0, word]

theorem word_setWord (b : Block) (i j : Fin 128) (w : Word) :
    (b.setWord i w).word j = if j = i then w else b.word j := by
  split
  · next h => rw [h, word_setWord_self]
  · next h => exact word_setWord_of_ne h

def setWords (b : Block) (i : Nat) : List Word → Block
  | [] => b
  | w :: ws => setWords (b.setWord (Fin.ofNat 128 i) w) (i + 1) ws

theorem word_setWords {b : Block} {i : Nat} {ws : List Word} (h : i + ws.length ≤ 128) (j : Fin 128) :
    (b.setWords i ws).word j = if i ≤ j.val then ws[j.val - i]?.getD (b.word j) else b.word j := by
  induction ws generalizing b i with
  | nil => simp [setWords]
  | cons w ws ih =>
    rw [List.length_cons] at h
    have hi : (Fin.ofNat 128 i).val = i := Nat.mod_eq_of_lt (by omega)
    rw [setWords, ih (by omega), word_setWord]
    rcases Nat.lt_trichotomy j.val i with hj | hj | hj
    · have hne : j ≠ Fin.ofNat 128 i := by rw [ne_eq, Fin.ext_iff]; omega
      simp only [hne, if_false, if_neg (show ¬i + 1 ≤ j.val by omega), if_neg (show ¬i ≤ j.val by omega)]
    · have heq : j = Fin.ofNat 128 i := by rw [Fin.ext_iff]; omega
      have hidx : j.val - i = 0 := by omega
      rw [if_neg (by omega), if_pos heq, if_pos (by omega), hidx]
      rfl
    · have hne : j ≠ Fin.ofNat 128 i := by rw [ne_eq, Fin.ext_iff]; omega
      have hidx : j.val - i = (j.val - (i + 1)) + 1 := by omega
      simp only [hne, if_false, if_pos (show i + 1 ≤ j.val by omega), if_pos (show i ≤ j.val by omega), hidx,
        List.getElem?_cons_succ]

@[simp] theorem word_zero (i : Fin 128) : zero.word i = 0 := by
  simp only [word, zero]
  rfl

end Block

end Xv6.Disk
