import Mathlib.Data.List.Basic
import Schemata.Text.Percent

namespace Schemata

namespace Text

theorem toList_loop (bytes : ByteArray) (i : Nat) (collected : List UInt8) :
    ByteArray.toList.loop bytes i collected = collected.reverse ++ bytes.data.toList.drop i := by
  induction left : bytes.size - i generalizing i collected with
  | zero =>
    have past : ¬ i < bytes.size := by omega
    have nothing : bytes.data.toList.drop i = [] := by
      rw [List.drop_eq_nil_iff, Array.length_toList]
      exact Nat.not_lt.mp past
    rw [ByteArray.toList.loop, if_neg past, nothing, List.append_nil]
  | succ left ih =>
    have inside : i < bytes.size := by omega
    have next : bytes.data.toList.drop i = bytes.get! i :: bytes.data.toList.drop (i + 1) := by
      have bound : i < bytes.data.toList.length := by
        rw [Array.length_toList]
        exact inside
      rw [List.drop_eq_getElem_cons bound]
      congr 1
      have same : bytes.data[i]! = bytes.data[i] := getElem!_pos bytes.data i inside
      exact same.symm
    rw [ByteArray.toList.loop, if_pos inside, ih (i + 1) _ (by omega), next, List.reverse_cons, List.append_assoc,
      List.singleton_append]

theorem toList_toUTF8 (c : Char) : c.toString.toUTF8.toList = String.utf8EncodeChar c := by
  have bytes : c.toString.toUTF8 = (String.utf8EncodeChar c).toByteArray := by
    rw [← List.utf8Encode_singleton]
    exact String.toByteArray_singleton
  rw [bytes, ByteArray.toList, toList_loop, List.reverse_nil, List.nil_append, List.drop_zero, List.data_toByteArray,
    List.toList_toArray]

theorem percentBytes_of_plain {text : List Char} (plain : '%' ∉ text) :
    percentBytes text = text.flatMap String.utf8EncodeChar := by
  induction text with
  | nil => rfl
  | cons c rest ih =>
    obtain ⟨first, others⟩ := not_or.mp (mt List.mem_cons.mpr plain)
    rw [percentBytes, ih others, toList_toUTF8, List.flatMap_cons]
    rintro a b more rfl
    exact absurd rfl first

theorem percentDecode?_of_plain {text : String} (plain : '%' ∉ text.toList) : percentDecode? text = some text := by
  have bytes : (⟨(percentBytes text.toList).toArray⟩ : ByteArray) = text.toByteArray := by
    have letters : text.toByteArray = text.toList.utf8Encode := by
      rw [← String.toByteArray_ofList, String.ofList_toList]
    rw [percentBytes_of_plain plain, letters]
    exact ByteArray.ext (List.data_toByteArray ..).symm
  rw [percentDecode?, bytes, String.fromUTF8?, dif_pos text.isValidUTF8]
  rfl

end Text

end Schemata
