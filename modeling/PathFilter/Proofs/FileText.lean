import PathFilter.Host
import PathFilter.Proofs.Components

/-! # Files that hold a text

A text is written to a file in UTF-8 (`Text.Utf8.encode`).  **What has been written is read back**:
the characters are (`Text.Utf8.decode_encode`), a text without carriage returns keeps its line ends
(`Text.unifyLineEnds_of_not_mem`), and lines each of which is ended by a line feed are its lines
(`Text.lines_unlines`), or the first of them if more text follows (`Text.lines_unlines_append`).
-/

namespace PathFilter
namespace Text

/-! ## Characters -/

namespace Utf8

/-- The bytes of a text in UTF-8. -/
def encode (t : Text) : List UInt8 := t.flatMap String.utf8EncodeChar

variable {b : UInt8} {due lo hi bits : Nat} {rest : List UInt8}

theorem decodeFrom_none_cons {p : Partial} (h : start b.toNat = ([], some p)) :
    decodeFrom none (b :: rest) = decodeFrom (some p) rest := by
  rw [decodeFrom, next, h]
  rfl

/-- A byte that continues a sequence and does not complete it. -/
theorem decodeFrom_some_cons (hlo : lo ≤ b.toNat) (hhi : b.toNat ≤ hi) :
    decodeFrom (some ⟨due + 2, lo, hi, bits⟩) (b :: rest) =
      decodeFrom (some ⟨due + 1, 0x80, 0xBF, bits * 64 + b.toNat % 64⟩) rest := by
  rw [decodeFrom, next]
  simp [hlo, hhi]

/-- The byte that completes a sequence. -/
theorem decodeFrom_some_last (hlo : lo ≤ b.toNat) (hhi : b.toNat ≤ hi) :
    decodeFrom (some ⟨1, lo, hi, bits⟩) (b :: rest) =
      Char.ofNat (bits * 64 + b.toNat % 64) :: decodeFrom none rest := by
  rw [decodeFrom, next]
  simp [hlo, hhi]

theorem start_two {n : Nat} (hlo : 0xC2 ≤ n) (hhi : n < 0xE0) :
    start n = ([], some ⟨1, 0x80, 0xBF, n - 0xC0⟩) := by
  rw [start, if_neg (by omega), if_neg (by omega), if_pos hhi]

theorem start_three {n : Nat} (hlo : 0xE0 ≤ n) (hhi : n < 0xF0) :
    start n = ([], some ⟨2, if n = 0xE0 then 0xA0 else 0x80, if n = 0xED then 0x9F else 0xBF,
      n - 0xE0⟩) := by
  rw [start, if_neg (by omega), if_neg (by omega), if_neg (by omega)]
  by_cases hfirst : n = 0xE0
  · subst hfirst
    rfl
  by_cases hlast : n = 0xED
  · subst hlast
    rfl
  rw [if_neg hfirst, if_neg hlast, if_pos hhi, if_neg hfirst, if_neg hlast]

theorem start_four {n : Nat} (hlo : 0xF0 ≤ n) (hhi : n ≤ 0xF4) :
    start n = ([], some ⟨3, if n = 0xF0 then 0x90 else 0x80, if n = 0xF4 then 0x8F else 0xBF,
      n - 0xF0⟩) := by
  obtain rfl | rfl | rfl | rfl | rfl :
      n = 0xF0 ∨ n = 0xF1 ∨ n = 0xF2 ∨ n = 0xF3 ∨ n = 0xF4 := by omega
  all_goals rfl

/-- The bytes of a character are read as that character. -/
theorem decodeFrom_encodeChar (c : Char) (rest : List UInt8) :
    decodeFrom none (String.utf8EncodeChar c ++ rest) = c :: decodeFrom none rest := by
  have hvalid : c.toNat < 0xD800 ∨ 0xDFFF < c.toNat ∧ c.toNat < 0x110000 := c.valid
  have hchar : Char.ofNat c.toNat = c := Char.ofNat_toNat c
  rw [String.utf8EncodeChar, ← Char.toNat]
  generalize c.toNat = n at hvalid hchar
  have hbyte : ∀ m, m < 256 → (UInt8.ofNat m).toNat = m := fun m hm => UInt8.toNat_ofNat_of_lt hm
  split
  · -- one byte
    rename_i hn
    rw [List.singleton_append, decodeFrom, next, hbyte n (by omega), start, if_pos (by omega),
      hchar]
    rfl
  split
  · -- two bytes
    have h₁ := hbyte (n / 64 % 32 + 192) (by omega)
    have h₂ := hbyte (n % 64 + 128) (by omega)
    rw [List.cons_append, List.singleton_append,
      decodeFrom_none_cons (by rw [h₁]; exact start_two (by omega) (by omega)),
      decodeFrom_some_last (by omega) (by omega), h₂, ← hchar]
    congr 2
    omega
  split
  · -- three bytes
    have h₁ := hbyte (n / 4096 % 16 + 224) (by omega)
    have h₂ := hbyte (n / 64 % 64 + 128) (by omega)
    have h₃ := hbyte (n % 64 + 128) (by omega)
    rw [List.cons_append, List.cons_append, List.singleton_append,
      decodeFrom_none_cons (by rw [h₁]; exact start_three (by omega) (by omega)),
      decodeFrom_some_cons (by split <;> omega) (by split <;> omega),
      decodeFrom_some_last (by omega) (by omega), h₂, h₃, ← hchar]
    congr 2
    omega
  · -- four bytes
    have h₁ := hbyte (n / 262144 % 8 + 240) (by omega)
    have h₂ := hbyte (n / 4096 % 64 + 128) (by omega)
    have h₃ := hbyte (n / 64 % 64 + 128) (by omega)
    have h₄ := hbyte (n % 64 + 128) (by omega)
    rw [List.cons_append, List.cons_append, List.cons_append, List.singleton_append,
      decodeFrom_none_cons (by rw [h₁]; exact start_four (by omega) (by omega)),
      decodeFrom_some_cons (by split <;> omega) (by split <;> omega),
      decodeFrom_some_cons (by omega) (by omega),
      decodeFrom_some_last (by omega) (by omega), h₂, h₃, h₄, ← hchar]
    congr 2
    omega

/-- **The bytes of a text are read as that text.** -/
theorem decode_encode (t : Text) : decode (encode t) = t := by
  rw [decode]
  induction t with
  | nil => rfl
  | cons c t ih => rw [encode, List.flatMap_cons, decodeFrom_encodeChar, ← encode, ih]

end Utf8

/-! ## Lines -/

/-- Texts one below the other, each ended by a line feed. -/
def unlines (ts : List Text) : Text := ts.flatMap (· ++ ['\n'])

theorem unifyLineEnds_of_not_mem {t : Text} (h : '\r' ∉ t) : unifyLineEnds t = t := by
  induction t with
  | nil => rfl
  | cons c t ih =>
    have hc : c ≠ '\r' := (List.ne_of_not_mem_cons h).symm
    rw [unifyLineEnds, if_neg hc, ih (List.not_mem_of_not_mem_cons h)]
    rintro rest rfl
    exact absurd rfl hc

theorem dropFinalEmpty_append (ls : List Text) {more : List Text} (hmore : more ≠ []) :
    dropFinalEmpty (ls ++ more) = ls ++ dropFinalEmpty more := by
  induction ls with
  | nil => rfl
  | cons l ls ih =>
    rw [List.cons_append, dropFinalEmpty, ih, List.cons_append]
    intro _ hnil
    exact absurd hnil (List.append_ne_nil_of_right_ne_nil ls hmore)

/-- **The lines of texts that are ended by line feeds are the lines of each of them**, and behind
them stand the lines of what follows. -/
theorem lines_unlines_append (ts : List Text) (t : Text) :
    lines (unlines ts ++ t) = ts.flatMap (splitOn '\n') ++ lines t := by
  have hsplit : splitOn '\n' (unlines ts ++ t) =
      ts.flatMap (splitOn '\n') ++ splitOn '\n' t := by
    induction ts with
    | nil => rfl
    | cons s ts ih =>
      rw [unlines, List.flatMap_cons, ← unlines, List.append_assoc, List.append_assoc,
        List.singleton_append, splitOn_append_cons, ih, List.flatMap_cons, List.append_assoc]
  rw [lines, hsplit, dropFinalEmpty_append _ (splitOn_ne_nil '\n' t), ← lines]

theorem lines_unlines (ts : List Text) : lines (unlines ts) = ts.flatMap (splitOn '\n') := by
  have h := lines_unlines_append ts []
  have hnil : lines [] = [] := rfl
  rwa [List.append_nil, hnil, List.append_nil] at h

/-- Lines that are ended by line feeds are the first ones of a text that begins with them. -/
theorem lines_unlines_append_of_not_mem {ls : List Text} (hls : ∀ l ∈ ls, '\n' ∉ l) (t : Text) :
    lines (unlines ls ++ t) = ls ++ lines t := by
  rw [lines_unlines_append, List.flatMap_congr fun l hl => splitOn_of_not_mem (hls l hl),
    List.flatMap_singleton']

theorem mem_of_mem_dropFinalEmpty {l : Text} {ls : List Text} (h : l ∈ dropFinalEmpty ls) :
    l ∈ ls := by
  fun_induction dropFinalEmpty ls with
  | case1 => exact h
  | case2 => exact absurd h List.not_mem_nil
  | case3 l' ls _ ih =>
    rcases List.mem_cons.mp h with rfl | h
    · exact List.mem_cons_self
    · exact List.mem_cons_of_mem l' (ih h)

/-- No line feed stands in a line. -/
theorem line_feed_not_mem_of_mem_lines {l t : Text} (h : l ∈ lines t) : '\n' ∉ l :=
  not_mem_of_mem_splitOn (mem_of_mem_dropFinalEmpty h)

end Text

theorem Host.readLines_of_readText {h : Host} {path t : Text} (hread : h.readText path = .ok t) :
    h.readLines path = .ok t.lines := by
  rw [readLines, readOr, hread]

/-- What a file that holds a text has for lines. -/
theorem Host.readLines_of_read {h : Host} {path : Text} {t : Text}
    (hread : h.files.read (h.fromCwd path) = .ok (Text.Utf8.encode t)) :
    h.readLines path = .ok (Text.unifyLineEnds t).lines := by
  refine readLines_of_readText ?_
  rw [readText, hread]
  show Except.ok (Text.unifyLineEnds (Text.Utf8.decode (Text.Utf8.encode t))) = _
  rw [Text.Utf8.decode_encode]

end PathFilter
