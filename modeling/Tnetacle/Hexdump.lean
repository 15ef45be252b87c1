import Tnetacle.Library.Printf

/-! # Dumping bytes

`hex_dump` of `hexdump.c`. A line is collected in three strings of a fixed size, is logged
once sixteen bytes have been taken, and is then printed through formats that cut what does
not fit. A line is what `log_debug` is given; the loop is over the bytes of `data`, which
`int size` counts.
-/

namespace Tnetacle.Hexdump

open ByteOrder CString Printf

/-- The strings of `hex_dump` and the lines it has logged. -/
structure Dump where
  addrstr : Str := []
  hexstr : Str := []
  charstr : Str := []
  lines : List Str := []
  deriving DecidableEq, Repr

def bytestrSize : ℕ := 4
def addrstrSize : ℕ := 10
def hexstrSize : ℕ := 16 * 3 + 5
def charstrSize : ℕ := 16 * 1 + 5

/-- `(unsigned int)p - (unsigned int)data` for the byte that is the `n`-th one. -/
def offsetOf (data : BitVec 64) (n : ℕ) : ℕ :=
  ((data + BitVec.ofNat 64 (n - 1)).truncate 32 - data.truncate 32 : BitVec 32).toNat

/-- `"[%4.4s]   %-50.50s  %s"` -/
def logLine (addrstr hexstr charstr : Str) : Str :=
  ascii "[" ++ padLeft 4 4 addrstr ++ ascii "]   " ++ padRight 50 50 hexstr ++ ascii "  " ++
    charstr

/-- The body of the loop, for the byte `*p`. -/
def Dump.next (data : BitVec 64) (d : Dump) (n : ℕ) (b : Byte) : Dump :=
  let addrstr :=
    if n % 16 = 1 then snprintf addrstrSize (printHex false 4 (offsetOf data n)) else d.addrstr
  let c : Byte := if isAlnum b then b else 46
  let hexstr := strncat d.hexstr (snprintf bytestrSize (printHex true 2 b.toNat ++ ascii " "))
    (hexstrSize - d.hexstr.length - 1)
  let charstr := strncat d.charstr (snprintf bytestrSize [c])
    (charstrSize - d.charstr.length - 1)
  if n % 16 = 0 then ⟨addrstr, [], [], d.lines ++ [logLine addrstr hexstr charstr]⟩
  else if n % 8 = 0 then
    ⟨addrstr, strncat hexstr (ascii "  ") (hexstrSize - hexstr.length - 1),
      strncat charstr (ascii " ") (charstrSize - charstr.length - 1), d.lines⟩
  else ⟨addrstr, hexstr, charstr, d.lines⟩

/-- The loop for the bytes `bs`, the first of which is the `n`-th one. -/
def Dump.loop (data : BitVec 64) (d : Dump) (n : ℕ) : List Byte → Dump
  | [] => d
  | b :: bs => Dump.loop data (d.next data n b) (n + 1) bs

/-- The lines logged for the bytes `bs` at the address `data`. -/
def hexDump (data : BitVec 64) (bs : List Byte) : List Str :=
  let d := Dump.loop data {} 1 bs
  if 0 < d.hexstr.length then d.lines ++ [logLine d.addrstr d.hexstr d.charstr] else d.lines

/-! ## The lines as they are meant -/

def column (cell : Byte → Str) (gap : Str) (bs : List Byte) : Str :=
  (bs.take 8).flatMap cell ++ (if 8 ≤ bs.length then gap else []) ++ (bs.drop 8).flatMap cell

def hexColumn : List Byte → Str :=
  column (fun b => hexDigits true 2 b.toNat ++ ascii " ") (ascii "  ")

def charColumn : List Byte → Str := column (fun b => [if isAlnum b then b else 46]) (ascii " ")

def row (bs : List Byte) (i : ℕ) : List Byte := (bs.drop (16 * i)).take 16

def addressOf (i : ℕ) : Str := printHex false 4 (16 * i % 2 ^ 32)

def lineOf (bs : List Byte) (i : ℕ) : Str :=
  logLine (addressOf i) (hexColumn (row bs i)) (charColumn (row bs i))

/-! ## Reading a line -/

def shownAddress (line : Str) : Str := (line.drop 1).take 4

def shownBytes (line : Str) : Option (List Byte) :=
  readPairs (((line.drop 9).take 50).filter (· ≠ 32))

/-- There is a line for every sixteen bytes, it shows them all, and its address is its own. -/
structure Lossless (bs : List Byte) (lines : List Str) : Prop where
  count : lines.length = (bs.length + 15) / 16
  bytes : ∀ (i : ℕ) (line : Str), lines[i]? = some line → shownBytes line = some (row bs i)
  address : ∀ (i j : ℕ) (line line' : Str), lines[i]? = some line → lines[j]? = some line' →
    shownAddress line = shownAddress line' → i = j

/-! ## The columns -/

section Column

variable {cell : Byte → Str} {gap : Str}

theorem column_snoc (bs : List Byte) (b : Byte) :
    column cell gap (bs ++ [b]) =
      column cell gap bs ++ cell b ++ if bs.length = 7 then gap else [] := by
  rcases Nat.lt_or_ge bs.length 8 with hlt | hge
  · have htake : (bs ++ [b]).take 8 = bs ++ [b] := List.take_of_length_le (by simp; omega)
    have hdrop : (bs ++ [b]).drop 8 = [] := List.drop_of_length_le (by simp; omega)
    rw [column, column, htake, hdrop, List.take_of_length_le hlt.le,
      List.drop_of_length_le hlt.le, if_neg (show ¬ 8 ≤ bs.length by omega)]
    by_cases hseven : bs.length = 7 <;> simp [hseven]
    omega
  · rw [column, column, List.take_append_of_le_length hge, List.drop_append_of_le_length hge,
      if_pos hge, if_pos (by simp; omega), if_neg (by omega)]
    simp

theorem length_column {k : ℕ} (cell : Byte → Str) (gap : Str) (hcell : ∀ b, (cell b).length = k)
    (bs : List Byte) :
    (column cell gap bs).length = k * bs.length + if 8 ≤ bs.length then gap.length else 0 := by
  have hcells : ∀ bs : List Byte, (bs.flatMap cell).length = k * bs.length := by
    intro bs
    induction bs with
    | nil => rfl
    | cons b bs ih =>
      rw [List.flatMap_cons, List.length_append, hcell, ih, List.length_cons, Nat.mul_succ,
        Nat.add_comm]
  have hsplit : (bs.take 8).length + (bs.drop 8).length = bs.length := by
    rw [← List.length_append, List.take_append_drop]
  rw [column, List.length_append, List.length_append, hcells, hcells, ← hsplit, Nat.mul_add]
  split
  · omega
  · simp

end Column

theorem length_hexColumn (bs : List Byte) :
    (hexColumn bs).length = 3 * bs.length + if 8 ≤ bs.length then 2 else 0 :=
  length_column _ _ (fun b => by rw [List.length_append, length_hexDigits]; rfl) bs

theorem length_charColumn (bs : List Byte) :
    (charColumn bs).length = bs.length + if 8 ≤ bs.length then 1 else 0 := by
  have h := length_column (fun b => [if isAlnum b then b else 46]) (ascii " ") (fun _ => rfl) bs
  rwa [Nat.one_mul] at h

/-! ## What a turn of the loop does -/

section Rows

variable (bs : List Byte) (b : Byte)

theorem length_row (i : ℕ) : (row bs i).length = min 16 (bs.length - 16 * i) := by
  rw [row, List.length_take, List.length_drop]

theorem row_append_of_le {i : ℕ} (h : 16 * i + 16 ≤ bs.length) : row (bs ++ [b]) i = row bs i := by
  rw [row, List.drop_append_of_le_length (by omega),
    List.take_append_of_le_length (by rw [List.length_drop]; omega), row]

theorem row_append_last : row (bs ++ [b]) (bs.length / 16) = row bs (bs.length / 16) ++ [b] := by
  have hdrop : (bs ++ [b]).drop (16 * (bs.length / 16)) =
      bs.drop (16 * (bs.length / 16)) ++ [b] := List.drop_append_of_le_length (by omega)
  rw [row, row, hdrop, List.take_of_length_le (by simp; omega),
    List.take_of_length_le (by simp; omega)]

theorem column_row_append (cell : Byte → Str) (gap : Str) :
    column cell gap (row (bs ++ [b]) (bs.length / 16)) =
      column cell gap (row bs (bs.length / 16)) ++ cell b ++
        if bs.length % 16 = 7 then gap else [] := by
  have hrow : (row bs (bs.length / 16)).length = bs.length % 16 := by
    rw [length_row]
    omega
  rw [row_append_last, column_snoc, hrow]

theorem hexColumn_row_append :
    hexColumn (row (bs ++ [b]) (bs.length / 16)) =
      hexColumn (row bs (bs.length / 16)) ++ (hexDigits true 2 b.toNat ++ ascii " ") ++
        if bs.length % 16 = 7 then ascii "  " else [] :=
  column_row_append bs b _ _

theorem charColumn_row_append :
    charColumn (row (bs ++ [b]) (bs.length / 16)) =
      charColumn (row bs (bs.length / 16)) ++ [if isAlnum b then b else 46] ++
        if bs.length % 16 = 7 then ascii " " else [] :=
  column_row_append bs b _ _

theorem map_lineOf_append {n : ℕ} (h : n ≤ bs.length / 16) :
    (List.range n).map (lineOf (bs ++ [b])) = (List.range n).map (lineOf bs) := by
  apply List.map_congr_left
  intro i hi
  have hi : i < n := List.mem_range.mp hi
  rw [lineOf, row_append_of_le bs b (by omega), lineOf]

theorem row_eq_nil {i : ℕ} (h : bs.length ≤ 16 * i) : row bs i = [] := by
  rw [row, List.drop_of_length_le h]
  rfl

end Rows

/-- What the loop has left once it has taken the bytes `bs`. -/
structure Dump.After (bs : List Byte) (d : Dump) : Prop where
  lines : d.lines = (List.range (bs.length / 16)).map (lineOf bs)
  hexstr : d.hexstr = hexColumn (row bs (bs.length / 16))
  charstr : d.charstr = charColumn (row bs (bs.length / 16))
  addrstr : bs.length % 16 ≠ 0 → d.addrstr = addressOf (bs.length / 16)

theorem offsetOf_succ (data : BitVec 64) (n : ℕ) : offsetOf data (n + 1) = n % 2 ^ 32 := by
  have hdata := data.isLt
  rw [offsetOf, BitVec.toNat_sub, BitVec.truncate_eq_setWidth, BitVec.truncate_eq_setWidth,
    BitVec.toNat_setWidth, BitVec.toNat_setWidth, BitVec.toNat_add, BitVec.toNat_ofNat,
    Nat.add_sub_cancel]
  omega

theorem length_addressOf (i : ℕ) :
    4 ≤ (addressOf i).length ∧ (addressOf i).length < addrstrSize := by
  have hwidth : hexWidth (16 * i % 2 ^ 32) ≤ 8 := hexWidth_le (Nat.mod_lt _ (by decide))
  rw [addressOf, printHex, length_hexDigits, addrstrSize]
  omega

section Next

variable {bs : List Byte} {d : Dump} (data : BitVec 64) (b : Byte)

theorem Dump.After.addrstr_next (h : d.After bs) :
    (if (bs.length + 1) % 16 = 1 then
      snprintf addrstrSize (printHex false 4 (offsetOf data (bs.length + 1))) else d.addrstr) =
      addressOf (bs.length / 16) := by
  split
  · have hoffset : bs.length = 16 * (bs.length / 16) := by omega
    rw [offsetOf_succ, hoffset, Nat.mul_div_cancel_left _ (by decide), ← addressOf]
    exact snprintf_of_lt (length_addressOf _).2
  · exact h.addrstr (by omega)

theorem Dump.After.hexstr_next (h : d.After bs) :
    strncat d.hexstr (snprintf bytestrSize (printHex true 2 b.toNat ++ ascii " "))
      (hexstrSize - d.hexstr.length - 1) =
      hexColumn (row bs (bs.length / 16)) ++ (hexDigits true 2 b.toNat ++ ascii " ") := by
  have hpair : (hexDigits true 2 b.toNat ++ ascii " ").length = 3 := by
    rw [List.length_append, length_hexDigits]
    rfl
  have hcolumn := length_hexColumn (row bs (bs.length / 16))
  have hrow := length_row bs (bs.length / 16)
  rw [printHex_of_lt b.isLt, snprintf_of_lt (by rw [hpair]; decide), h.hexstr]
  apply strncat_of_le
  rw [hpair, hexstrSize]
  split at hcolumn <;> omega

theorem Dump.After.charstr_next (h : d.After bs) :
    strncat d.charstr (snprintf bytestrSize [if isAlnum b then b else 46])
      (charstrSize - d.charstr.length - 1) =
      charColumn (row bs (bs.length / 16)) ++ [if isAlnum b then b else 46] := by
  have hcolumn := length_charColumn (row bs (bs.length / 16))
  have hrow := length_row bs (bs.length / 16)
  rw [snprintf_of_lt (by decide : 1 < bytestrSize), h.charstr]
  apply strncat_of_le
  rw [List.length_singleton, charstrSize]
  split at hcolumn <;> omega

theorem Dump.After.line (h : d.After bs) (hlast : (bs.length + 1) % 16 = 0) (addrstr : Str) :
    Dump.After (bs ++ [b])
      ⟨addrstr, [], [], d.lines ++ [lineOf (bs ++ [b]) (bs.length / 16)]⟩ := by
  have hlength : (bs ++ [b]).length = bs.length + 1 := by simp
  have hcount : (bs.length + 1) / 16 = bs.length / 16 + 1 := by omega
  have hnext : row (bs ++ [b]) (bs.length / 16 + 1) = [] := row_eq_nil _ (by omega)
  constructor
  · rw [hlength, hcount, List.range_succ, List.map_append, map_lineOf_append bs b (Nat.le_refl _),
      ← h.lines, List.map_singleton]
  · rw [hlength, hcount, hnext]
    rfl
  · rw [hlength, hcount, hnext]
    rfl
  · intro hpartial
    exact absurd (hlength ▸ hlast) hpartial

theorem Dump.After.cell (h : d.After bs) (hlast : (bs.length + 1) % 16 ≠ 0) :
    Dump.After (bs ++ [b])
      ⟨addressOf (bs.length / 16), hexColumn (row (bs ++ [b]) (bs.length / 16)),
        charColumn (row (bs ++ [b]) (bs.length / 16)), d.lines⟩ := by
  have hlength : (bs ++ [b]).length = bs.length + 1 := by simp
  have hcount : (bs.length + 1) / 16 = bs.length / 16 := by omega
  constructor
  · rw [hlength, hcount, map_lineOf_append bs b (Nat.le_refl _), h.lines]
  · rw [hlength, hcount]
  · rw [hlength, hcount]
  · intro _
    rw [hlength, hcount]

theorem Dump.After.next (h : d.After bs) :
    (d.next data (bs.length + 1) b).After (bs ++ [b]) := by
  unfold Dump.next
  simp only [h.addrstr_next, h.hexstr_next, h.charstr_next]
  split
  · rename_i hlast
    have hgap : bs.length % 16 ≠ 7 := by omega
    have hline := h.line b hlast (addressOf (bs.length / 16))
    rwa [lineOf, hexColumn_row_append, charColumn_row_append, if_neg hgap, if_neg hgap,
      List.append_nil, List.append_nil] at hline
  · rename_i hlast
    have hcell := h.cell b hlast
    rw [hexColumn_row_append, charColumn_row_append] at hcell
    split
    · -- the eighth byte is followed by the gap
      have hgap : bs.length % 16 = 7 := by omega
      have hrow : (row bs (bs.length / 16)).length = 7 := by
        rw [length_row]
        omega
      rw [strncat_of_le, strncat_of_le]
      · rwa [if_pos hgap, if_pos hgap] at hcell
      · rw [List.length_append, length_charColumn, hrow, List.length_singleton]
        decide
      · rw [List.length_append, length_hexColumn, hrow, List.length_append, length_hexDigits]
        decide
    · have hgap : bs.length % 16 ≠ 7 := by omega
      rwa [if_neg hgap, if_neg hgap, List.append_nil, List.append_nil] at hcell

end Next

theorem Dump.After.loop {bs : List Byte} {d : Dump} (data : BitVec 64) (h : d.After bs)
    (rest : List Byte) : (Dump.loop data d (bs.length + 1) rest).After (bs ++ rest) := by
  induction rest generalizing bs d with
  | nil => rwa [List.append_nil]
  | cons b rest ih =>
    have hrest := ih (h.next data b)
    rwa [List.append_assoc, List.length_append] at hrest

theorem after_init : Dump.After [] {} := ⟨rfl, rfl, rfl, fun h => absurd rfl h⟩

theorem hexDump_eq (data : BitVec 64) (bs : List Byte) :
    hexDump data bs = (List.range ((bs.length + 15) / 16)).map (lineOf bs) := by
  have hafter : (Dump.loop data {} 1 bs).After bs := after_init.loop data bs
  have hrow := length_row bs (bs.length / 16)
  have hcolumn := length_hexColumn (row bs (bs.length / 16))
  rw [hexDump]
  simp only [hafter.hexstr, hafter.lines, hafter.charstr]
  split
  · have hpartial : bs.length % 16 ≠ 0 := by
      split at hcolumn <;> omega
    have hcount : (bs.length + 15) / 16 = bs.length / 16 + 1 := by omega
    rw [hafter.addrstr hpartial, hcount, List.range_succ, List.map_append]
    rfl
  · have hcomplete : bs.length % 16 = 0 := by omega
    have hcount : (bs.length + 15) / 16 = bs.length / 16 := by omega
    rw [hcount]

/-! ## What a line shows -/

section Shown

variable {addrstr : Str} (h : 4 ≤ addrstr.length) (hexstr charstr : Str)
include h

theorem shownAddress_logLine : shownAddress (logLine addrstr hexstr charstr) = addrstr.take 4 := by
  have hlength : (addrstr.take 4).length = 4 := by
    rw [List.length_take]
    omega
  simp only [shownAddress, logLine, padLeft_of_le h, List.append_assoc]
  exact List.take_left' hlength

theorem hexField_logLine :
    ((logLine addrstr hexstr charstr).drop 9).take 50 = padRight 50 50 hexstr := by
  have hhead : (ascii "[" ++ addrstr.take 4 ++ ascii "]   ").length = 9 := by
    rw [List.length_append, List.length_append, List.length_take]
    simp [ascii]
    omega
  rw [logLine, padLeft_of_le h, List.append_assoc (_ ++ _), List.append_assoc (_ ++ _),
    List.drop_left' hhead]
  exact List.take_left' (length_padRight hexstr (Nat.le_refl _))

end Shown

theorem filter_hexColumn (bs : List Byte) :
    (hexColumn bs).filter (· ≠ 32) = bs.flatMap fun b => hexDigits true 2 b.toNat := by
  have hcells : ∀ bs : List Byte,
      (bs.flatMap fun b => hexDigits true 2 b.toNat ++ ascii " ").filter (· ≠ 32) =
        bs.flatMap fun b => hexDigits true 2 b.toNat := by
    intro bs
    rw [List.filter_flatMap]
    congr 1
    funext b
    rw [List.filter_append, List.filter_eq_self.mpr fun x hx =>
      decide_eq_true (ne_blank_of_mem_hexDigits hx)]
    exact List.append_nil _
  have hgap : (if 8 ≤ bs.length then ascii "  " else []).filter (· ≠ 32) = [] := by
    split <;> rfl
  rw [hexColumn, column, List.filter_append, List.filter_append, hcells, hcells, hgap,
    List.append_nil, ← List.flatMap_append, List.take_append_drop]

theorem shownBytes_lineOf (bs : List Byte) (i : ℕ) :
    shownBytes (lineOf bs i) = some (row bs i) := by
  have hrow := length_row bs i
  have hlength : (hexColumn (row bs i)).length ≤ 50 := by
    rw [length_hexColumn]
    split <;> omega
  rw [shownBytes, lineOf, hexField_logLine (length_addressOf i).1, padRight,
    List.take_of_length_le hlength, List.filter_append, filter_hexColumn]
  have hblanks : ∀ n, (List.replicate n (32 : Byte)).filter (· ≠ 32) = [] := by
    intro n
    simp
  rw [hblanks, List.append_nil, readPairs_flatMap]

theorem shownAddress_lineOf (bs : List Byte) (i : ℕ) :
    shownAddress (lineOf bs i) = (addressOf i).take 4 :=
  shownAddress_logLine (length_addressOf i).1 _ _

theorem getElem?_hexDump_eq_some_iff {data : BitVec 64} {bs : List Byte} {i : ℕ} {line : Str} :
    (hexDump data bs)[i]? = some line ↔ i < (bs.length + 15) / 16 ∧ lineOf bs i = line := by
  rw [hexDump_eq, List.getElem?_map]
  rcases Nat.lt_or_ge i ((bs.length + 15) / 16) with hlt | hge
  · simp [hlt]
  · rw [List.getElem?_eq_none (by simpa using hge)]
    simp [Nat.not_lt.mpr hge]

theorem shownAddress_inj {i j : ℕ} (hi : i < 4096) (hj : j < 4096)
    (h : (addressOf i).take 4 = (addressOf j).take 4) : i = j := by
  have haddress : ∀ i < 4096, (addressOf i).take 4 = hexDigits false 4 (16 * i) := by
    intro i hi
    rw [addressOf, Nat.mod_eq_of_lt (by omega), printHex_of_lt (by omega)]
    exact List.take_of_length_le (Nat.le_of_eq (length_hexDigits _ _ _))
  rw [haddress i hi, haddress j hj] at h
  have hoffset := hexDigits_inj (show 16 * i < 16 ^ 4 by omega) (show 16 * j < 16 ^ 4 by omega) h
  omega

theorem not_lossless_of_lt {bs : List Byte} (data : BitVec 64) (h : 65536 < bs.length) :
    ¬ Lossless bs (hexDump data bs) := by
  intro hlossless
  -- the addresses 1000 and 10000 are shown alike
  have hsame : shownAddress (lineOf bs 256) = shownAddress (lineOf bs 4096) := by
    rw [shownAddress_lineOf, shownAddress_lineOf]
    decide
  have hlines := hlossless.address 256 4096 _ _
    (getElem?_hexDump_eq_some_iff.mpr ⟨by omega, rfl⟩)
    (getElem?_hexDump_eq_some_iff.mpr ⟨by omega, rfl⟩) hsame
  omega

/--
The lines of a dump always show all the bytes, and the address of a line tells which line it
is exactly as long as no offset has more than four digits.
-/
theorem hexDump_lossless_iff (data : BitVec 64) (bs : List Byte) :
    Lossless bs (hexDump data bs) ↔ bs.length ≤ 65536 := by
  constructor
  · intro hlossless
    exact Nat.not_lt.mp fun hlt => not_lossless_of_lt data hlt hlossless
  · intro hle
    constructor
    · rw [hexDump_eq, List.length_map, List.length_range]
    · intro i line hline
      obtain ⟨-, rfl⟩ := getElem?_hexDump_eq_some_iff.mp hline
      exact shownBytes_lineOf bs i
    · intro i j line line' hline hline' haddress
      obtain ⟨hi, rfl⟩ := getElem?_hexDump_eq_some_iff.mp hline
      obtain ⟨hj, rfl⟩ := getElem?_hexDump_eq_some_iff.mp hline'
      rw [shownAddress_lineOf, shownAddress_lineOf] at haddress
      exact shownAddress_inj (by omega) (by omega) haddress

/-- One byte more than four digits can count: lines 256 and 4096 both show the address 1000. -/
theorem address_shown_twice :
    let bs : List Byte := List.replicate 65537 0
    ¬ Lossless bs (hexDump 0 bs) ∧
      ((hexDump 0 bs)[256]?.map shownAddress = some (ascii "1000") ∧
        (hexDump 0 bs)[4096]?.map shownAddress = some (ascii "1000")) := by
  intro bs
  have hlength : bs.length = 65537 := List.length_replicate
  have hshown : ∀ i < 4097, (hexDump 0 bs)[i]?.map shownAddress = some ((addressOf i).take 4) := by
    intro i hi
    rw [getElem?_hexDump_eq_some_iff.mpr ⟨by omega, rfl⟩, Option.map_some, shownAddress_lineOf]
  refine ⟨not_lossless_of_lt 0 (by omega), ?_, ?_⟩
  · rw [hshown 256 (by decide)]
    decide
  · rw [hshown 4096 (by decide)]
    decide

end Tnetacle.Hexdump
