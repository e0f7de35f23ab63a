import Mathlib.Data.List.Basic

namespace Xv6.Lib

variable {α : Type}

def overwrite (l : List α) (off n : Nat) (src : Nat → α) : List α :=
  l.take off ++ (List.range n).map src ++ l.drop (off + n)

theorem length_overwrite (h : off ≤ l.length) : (overwrite l off n src).length = max l.length (off + n) := by
  simp only [overwrite, List.length_append, List.length_take, List.length_map, List.length_range, List.length_drop]
  omega

theorem getElem?_overwrite (h : off ≤ l.length) :
    (overwrite l off n src)[k]? = if off ≤ k ∧ k < off + n then some (src (k - off)) else l[k]? := by
  have htake : (l.take off).length = off := List.length_take_of_le h
  have hmid : (l.take off ++ (List.range n).map src).length = off + n := by
    rw [List.length_append, htake, List.length_map, List.length_range]
  unfold overwrite
  rcases Nat.lt_or_ge k (off + n) with hlt | hge
  · rw [List.getElem?_append_left (hmid ▸ hlt)]
    rcases Nat.lt_or_ge k off with hlo | hlo
    · rw [List.getElem?_append_left (htake.symm ▸ hlo), List.getElem?_take_of_lt hlo, if_neg (by omega)]
    · rw [List.getElem?_append_right (htake.symm ▸ hlo), htake, if_pos ⟨hlo, hlt⟩, List.getElem?_map,
        List.getElem?_range (by omega), Option.map_some]
  · rw [List.getElem?_append_right (hmid ▸ hge), hmid, List.getElem?_drop, if_neg (by omega)]
    congr 1
    omega

end Xv6.Lib
