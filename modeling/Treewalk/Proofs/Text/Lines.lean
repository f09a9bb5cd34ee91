import Treewalk.Proofs.Text.Utf8
import Treewalk.Text.Line

/-!
# Lines of a text

A text falls into lines, each of which ends with a line feed, except that the last one may lack it.
In UTF-8 no other character has an octet that is a line feed, so the lines that are taken off a
stream of octets are the lines of the text.

## Main definitions

* `Line.lines`: the lines of a text.

## Main results

* `Line.flatten_lines`, `Line.lines_ends`: what the lines of a text are.
* `Line.read_encode`: the first line is taken off the octets of a text.
* `Line.exists_ending`: a line without its ending.
-/

namespace Treewalk.Line

open Utf8

/-- The lines of a text, each with its line feed. -/
def lines : List Char → List (List Char)
  | [] => []
  | c :: cs =>
    if c = '\n' then [c] :: lines cs
    else (c :: (lines cs).headD []) :: (lines cs).tail

theorem lines_feed (cs : List Char) : lines ('\n' :: cs) = ['\n'] :: lines cs :=
  if_pos rfl

theorem lines_cons {c : Char} (hc : c ≠ '\n') (cs : List Char) :
    lines (c :: cs) = (c :: (lines cs).headD []) :: (lines cs).tail :=
  if_neg hc

/-- A text is its lines one after the other. -/
theorem flatten_lines (cs : List Char) : (lines cs).flatten = cs := by
  induction cs with
  | nil => rfl
  | cons c cs ih =>
    by_cases hc : c = '\n'
    · rw [hc, lines_feed, List.flatten_cons, ih]
      rfl
    · rw [lines_cons hc, List.flatten_cons, List.cons_append]
      refine congrArg (c :: ·) (Eq.trans ?_ ih)
      cases lines cs <;> rfl

/-- In a line only the last character may be a line feed, and it is one in all lines but the last. -/
theorem lines_ends (cs : List Char) :
    (∀ line ∈ lines cs, line ≠ [] ∧ '\n' ∉ line.dropLast) ∧
      ∀ line ∈ (lines cs).dropLast, line.getLast? = some '\n' := by
  induction cs with
  | nil => simp [lines]
  | cons c cs ih =>
    obtain ⟨hlines, hlast⟩ := ih
    by_cases hc : c = '\n'
    · rw [hc, lines_feed]
      refine ⟨List.forall_mem_cons.mpr ⟨by simp, hlines⟩, ?_⟩
      cases hl : lines cs with
      | nil => simp
      | cons line later =>
        rw [hl] at hlast
        exact List.forall_mem_cons.mpr ⟨rfl, hlast⟩
    · rw [lines_cons hc]
      cases hl : lines cs with
      | nil => simp
      | cons line later =>
        rw [hl] at hlines hlast
        obtain ⟨⟨hne, hfeed⟩, hlater⟩ := List.forall_mem_cons.mp hlines
        refine ⟨List.forall_mem_cons.mpr ⟨⟨List.cons_ne_nil _ _, ?_⟩, hlater⟩, ?_⟩
        · rw [List.headD_cons, List.dropLast_cons_of_ne_nil hne]
          exact fun hmem => (List.mem_cons.mp hmem).elim (fun h => hc h.symm) hfeed
        · cases later with
          | nil => simp
          | cons next later =>
            obtain ⟨hline, hlater⟩ := List.forall_mem_cons.mp hlast
            refine List.forall_mem_cons.mpr ⟨?_, hlater⟩
            rw [List.headD_cons, List.getLast?_cons_of_ne_nil hne, hline]

/-! ### Lines in UTF-8 -/

/-- Octets that are no line feed belong to the first line. -/
theorem take_append {octets : List UInt8} (h : ∀ octet ∈ octets, octet ≠ feed)
    (stream : List UInt8) :
    take (octets ++ stream) = (octets ++ (take stream).1, (take stream).2) := by
  have hpass : ∀ octet ∈ octets, (octet != feed) = true := fun octet hoctet =>
    bne_iff_ne.mpr (h octet hoctet)
  rw [take, take, List.takeWhile_append_of_pos hpass, List.dropWhile_append_of_pos hpass]
  cases stream.dropWhile (· != feed) with
  | nil => rfl
  | cons octet rest => exact congrArg (·, rest) (List.append_assoc _ _ _)

theorem take_feed (stream : List UInt8) : take (feed :: stream) = ([feed], stream) := by
  simp [take]

/-- No other character has an octet that is a line feed. -/
theorem ne_feed_of_mem_encodeChar {c : Char} (hc : c ≠ '\n') {octet : UInt8}
    (hoctet : octet ∈ encodeChar c) : octet ≠ feed := by
  rintro rfl
  by_cases hascii : c.toNat < 0x80
  · rw [encodeChar_ascii hascii, List.mem_singleton] at hoctet
    refine hc (Char.ext (UInt32.toNat_inj.mp ?_))
    have hnat := congrArg UInt8.toNat hoctet
    rw [toNat_toUInt8 (by omega)] at hnat
    exact hnat.symm
  · have hle := le_of_mem_encodeChar (Nat.le_of_not_lt hascii) hoctet
    exact absurd hle (by decide)

/-- The first line of a text and the rest of it. -/
theorem exists_take_encode {cs : List Char} (hcs : cs ≠ []) : ∃ line rest, line ≠ [] ∧
    lines cs = line :: lines rest ∧ take (encode cs) = (encode line, encode rest) := by
  induction cs with
  | nil => exact absurd rfl hcs
  | cons c cs ih =>
    by_cases hc : c = '\n'
    · subst hc
      exact ⟨['\n'], cs, List.cons_ne_nil _ _, lines_feed cs, take_feed (encode cs)⟩
    · rw [encode_cons, take_append fun octet => ne_feed_of_mem_encodeChar hc, lines_cons hc]
      by_cases hnil : cs = []
      · subst hnil
        exact ⟨[c], [], List.cons_ne_nil _ _, rfl, rfl⟩
      · obtain ⟨line, rest, -, hlines, htake⟩ := ih hnil
        refine ⟨c :: line, rest, List.cons_ne_nil _ _, ?_, ?_⟩
        · rw [hlines]
          rfl
        · rw [htake, encode_cons]

/-- The first line is taken off the octets of a text. -/
theorem read_encode {cs : List Char} (hcs : cs ≠ []) : ∃ line rest, line ≠ [] ∧
    lines cs = line :: lines rest ∧
      read (encode cs) = (.text (String.ofList line), encode rest) := by
  obtain ⟨line, rest, hne, hlines, htake⟩ := exists_take_encode hcs
  refine ⟨line, rest, hne, hlines, ?_⟩
  have hoctets : (encode line).isEmpty = false :=
    List.isEmpty_eq_false_iff.mpr fun h => hne (encode_eq_nil_iff.mp h)
  simp only [read, htake, ofOctets, hoctets, decode_encode, Bool.false_eq_true, if_false]

/-! ### Endings -/

theorem isEnding_iff {c : Char} : isEnding c = true ↔ c = '\n' ∨ c = '\r' := by
  simp [isEnding]

/-- A line is what is left of it when it is trimmed, and then line feeds and carriage returns, none of
which is left at the end. -/
theorem exists_ending (line : String) : ∃ ending, line.toList = (trim line).toList ++ ending ∧
    (∀ c ∈ ending, c = '\n' ∨ c = '\r') ∧
      ∀ c, (trim line).toList.getLast? = some c → c ≠ '\n' ∧ c ≠ '\r' := by
  refine ⟨(line.toList.reverse.takeWhile isEnding).reverse, ?_, fun c hc => ?_, fun c hc => ?_⟩
  · rw [trim, String.toList_ofList, ← List.reverse_append, List.takeWhile_append_dropWhile,
      List.reverse_reverse]
  · exact isEnding_iff.mp (List.mem_takeWhile_imp (List.mem_reverse.mp hc))
  · rw [trim, String.toList_ofList, List.getLast?_reverse] at hc
    have hhead := List.head?_dropWhile_not isEnding line.toList.reverse
    rw [hc] at hhead
    have hnot : isEnding c = false := by simpa using hhead
    exact not_or.mp fun h => Bool.false_ne_true (hnot.symm.trans (isEnding_iff.mpr h))

end Treewalk.Line
