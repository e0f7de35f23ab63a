import Xv6.Dir.Code
import Xv6.Lib.Slots

namespace Xv6.Dir

open Lib Disk Fs

namespace Dirent

def slot (de : Dirent) : Option (Str × BitVec 16) :=
  if de.inum = 0 then none else some (nameKey de.name, de.inum)

theorem ofBytes_byte (hname : de.name.length = dirsiz) : ofBytes ((List.range 16).map de.byte) = de := by
  obtain ⟨inum, name⟩ := de
  have hinum : (inum.extractLsb' 8 8 ++ inum.extractLsb' 0 8 : BitVec 16) = inum := by
    apply BitVec.eq_of_getLsbD_eq
    intro k hk
    rw [BitVec.getLsbD_append, BitVec.getLsbD_extractLsb', BitVec.getLsbD_extractLsb']
    split
    · next hlt => simp [hlt]
    · next hge =>
      have hsub : 8 + (k - 8) = k := by omega
      simp [hsub, show k - 8 < 8 by omega]
  have hlist : ((List.range 16).map (byte ⟨inum, name⟩)).drop 2 = name.map UInt8.toBitVec := by
    apply List.ext_getElem
    · simp [show name.length = 14 from hname]
    · intro k hk hk'
      rw [List.length_map] at hk'
      rw [List.getElem_drop, List.getElem_map, List.getElem_range, List.getElem_map, byte, if_neg (by omega),
        if_neg (by omega), Nat.add_sub_cancel_left, List.getD_eq_getElem?_getD, List.getElem?_eq_getElem hk',
        Option.getD_some]
  unfold ofBytes
  rw [hlist, List.map_map]
  have hid : (UInt8.ofBitVec ∘ UInt8.toBitVec) = id := rfl
  rw [hid, List.map_id]
  exact congrArg (Dirent.mk · name) hinum

end Dirent

theorem length_strncpy (n : Nat) (t : Str) : (strncpy n t).length = n := by
  induction n generalizing t with
  | zero => rfl
  | succ n ih =>
    rw [strncpy]
    split
    · exact List.length_replicate
    · rw [List.length_cons, ih]

theorem nameKey_strncpy (name : Str) : nameKey (strncpy dirsiz name) = nameKey name := by
  have hcopy : ∀ (n : Nat) (t : Str), ((strncpy n t).takeWhile (· != 0)).take n = (t.takeWhile (· != 0)).take n := by
    intro n
    induction n with
    | zero => simp
    | succ n ih =>
      intro t
      rw [strncpy]
      cases t with
      | nil => simp [List.replicate_succ]
      | cons a t => by_cases ha : a = 0 <;> simp [ha, ih, List.replicate_succ]
  exact hcopy dirsiz name

def chunk (bytes : List Byte) (k : Nat) : List Byte := (bytes.drop (16 * k)).take 16

def slotsOf (bytes : List Byte) : List (Option (Str × BitVec 16)) :=
  (List.range (bytes.length / 16)).map fun k => (Dirent.ofBytes (chunk bytes k)).slot

theorem length_slotsOf : (slotsOf bytes).length = bytes.length / 16 := by
  rw [slotsOf, List.length_map, List.length_range]

theorem getElem?_slotsOf : (slotsOf bytes)[m]? =
    if m < bytes.length / 16 then some (Dirent.ofBytes (chunk bytes m)).slot else none := by
  rw [slotsOf, List.getElem?_map]
  split
  · next hlt => rw [List.getElem?_range hlt, Option.map_some]
  · next hge =>
    rw [List.getElem?_eq_none (by rw [List.length_range]; omega)]
    rfl

theorem length_chunk (h : n < bytes.length / 16) : (chunk bytes n).length = 16 := by
  rw [chunk, List.length_take, List.length_drop]
  omega

theorem slotsOf_overwrite (hwhole : bytes.length % 16 = 0) (hn : n ≤ bytes.length / 16) :
    slotsOf (overwrite bytes (16 * n) 16 src) =
      Slots.put (slotsOf bytes) n (Dirent.ofBytes ((List.range 16).map src)).slot := by
  have hoff : 16 * n ≤ bytes.length := by omega
  have hchunk : ∀ m, chunk (overwrite bytes (16 * n) 16 src) m =
      if m = n then (List.range 16).map src else chunk bytes m := by
    intro m
    apply List.ext_getElem?
    intro k
    rw [chunk, List.getElem?_take, List.getElem?_drop, getElem?_overwrite hoff]
    by_cases hk : k < 16
    · rw [if_pos hk]
      by_cases hm : m = n
      · rw [if_pos (by omega), if_pos hm, List.getElem?_map, List.getElem?_range hk, Option.map_some]
        congr 2
        omega
      · rw [if_neg (by omega), if_neg hm, chunk, List.getElem?_take, if_pos hk, List.getElem?_drop]
    · rw [if_neg hk, List.getElem?_eq_none]
      split
      · rw [List.length_map, List.length_range]
        omega
      · rw [chunk, List.length_take]
        omega
  have hlen : (overwrite bytes (16 * n) 16 src).length = max bytes.length (16 * n + 16) := length_overwrite hoff
  apply List.ext_getElem?
  intro m
  rw [Slots.getElem?_put (by rw [length_slotsOf]; exact hn), getElem?_slotsOf, getElem?_slotsOf, hchunk, hlen]
  by_cases hm : m = n
  · rw [if_pos hm, if_pos hm, if_pos (by omega)]
  · rw [if_neg hm, if_neg hm]
    exact if_congr (by omega) rfl rfl

end Xv6.Dir
