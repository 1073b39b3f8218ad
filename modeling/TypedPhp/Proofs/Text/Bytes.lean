import Mathlib.Tactic.Common

set_option autoImplicit false

/-!
# Bytes of texts

The list of the bytes of a text determines the text.
-/

namespace TypedPhp

/-- The bytes that are read from a place on, after those already read in reverse. -/
theorem toList_loop (bs : ByteArray) (i : Nat) (read : List UInt8) :
    ByteArray.toList.loop bs i read = read.reverse ++ bs.data.toList.drop i := by
  fun_induction ByteArray.toList.loop bs i read with
  | case1 i read hlt ih =>
      have hlen : i < bs.data.toList.length := hlt
      have hget : bs.get! i = bs.data.toList[i] := by
        simp only [ByteArray.get!, Array.getElem_toList]
        exact getElem!_pos bs.data i hlt
      rw [ih, hget, List.drop_eq_getElem_cons (l := bs.data.toList) hlen, List.reverse_cons,
        List.append_assoc]
      rfl
  | case2 i read hge =>
      have hlen : bs.data.toList.length ≤ i := Nat.le_of_not_lt hge
      rw [List.drop_eq_nil_of_le hlen, List.append_nil]

theorem toList_eq (bs : ByteArray) : bs.toList = bs.data.toList := by
  rw [ByteArray.toList, toList_loop]
  rfl

theorem toUTF8_toList_inj {s t : String} (h : s.toUTF8.toList = t.toUTF8.toList) : s = t := by
  rw [toList_eq, toList_eq] at h
  exact String.toByteArray_inj.1 (ByteArray.ext (Array.toList_inj.1 h))

end TypedPhp
