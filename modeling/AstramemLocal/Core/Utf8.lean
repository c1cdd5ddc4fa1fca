/-
The UTF-8 bytes of a string: they determine it (`utf8_injective`), and only the character NUL has a zero byte
(`zero_notMem_utf8`).
-/
import Mathlib.Data.Char
import Mathlib.Tactic.Common

namespace AstramemLocal.Core

def utf8 (s : String) : List UInt8 := s.toList.flatMap String.utf8EncodeChar

theorem utf8_injective : Function.Injective utf8 := by
  intro a b h
  have hencode : a.toList.utf8Encode = b.toList.utf8Encode := by
    rw [List.utf8Encode, List.utf8Encode]
    exact congrArg _ h
  rwa [String.utf8Encode_toList, String.utf8Encode_toList, String.toByteArray_inj] at hencode

theorem zero_eq_ofNat {n : ℕ} (hn : n < 256) (h : (0 : UInt8) = UInt8.ofNat n) : n = 0 := by
  have hmod := congrArg UInt8.toNat h
  rw [UInt8.toNat_ofNat', Nat.mod_eq_of_lt hn] at hmod
  exact hmod.symm

theorem zero_mem_encodeChar {c : Char} (h : 0 ∈ String.utf8EncodeChar c) : c = '\x00' := by
  have hval : c.val.toNat = c.toNat := rfl
  have hnul : c.toNat = 0 := by
    unfold String.utf8EncodeChar at h
    dsimp only at h
    split_ifs at h
    all_goals simp only [List.mem_cons, List.not_mem_nil, or_false] at h
    · exact zero_eq_ofNat (by omega) h
    · rcases h with h | h
      all_goals
        have hlead := zero_eq_ofNat (by omega) h
        omega
    · rcases h with h | h | h
      all_goals
        have hlead := zero_eq_ofNat (by omega) h
        omega
    · rcases h with h | h | h | h
      all_goals
        have hlead := zero_eq_ofNat (by omega) h
        omega
  exact Char.toNat_inj.1 hnul

theorem zero_notMem_utf8 {s : String} (h : '\x00' ∉ s.toList) : 0 ∉ utf8 s := by
  intro hzero
  obtain ⟨c, hc, hbyte⟩ := List.mem_flatMap.1 hzero
  exact h (zero_mem_encodeChar hbyte ▸ hc)

end AstramemLocal.Core
