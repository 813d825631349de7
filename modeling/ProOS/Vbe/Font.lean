import ProOS.Framework.Memory

/-! The fonts of the console (`vbe.c`): the two parsers, and the glyph that is drawn for a character. -/

namespace ProOS.Vbe

open ProOS.Framework Option

/-- A buffer with a font file, and the memory it is in. -/
structure Buffer where
  address : UInt32
  bytes : Mem
  size : UInt32

structure ParsedFont where
  glyphBase : UInt32
  stride : UInt32
  height : UInt32
  width : UInt32
  firstChar : UInt32
  glyphCount : UInt32
  lsbLeft : Bool
deriving DecidableEq, Repr

/-! ## PSF -/

structure Psf2Header where
  magic : UInt32
  headerSize : UInt32
  glyphCount : UInt32
  glyphSize : UInt32
  height : UInt32
  width : UInt32

def Buffer.word (b : Buffer) (off : Nat) : UInt32 := UInt32.ofNat (get32 b.bytes off)

def Buffer.header (b : Buffer) : Psf2Header where
  magic := b.word 0
  headerSize := b.word 8
  glyphCount := b.word 16
  glyphSize := b.word 20
  height := b.word 24
  width := b.word 28

/-- An `int` that has passed its range comes back from the other end. -/
def wrapInt (x : Int) : Int := Int.bmod x (2 ^ 32)

def isBlank (c : UInt8) : Bool := c == 32 || c == 9

def trimSpaces (line : List UInt8) : List UInt8 := (line.dropWhile isBlank).rdropWhile (fun c => isBlank c || c == 13)

def isDigit (c : UInt8) : Bool := 48 ≤ c && c ≤ 57

def parseDigits (sign : Int) (s : List UInt8) : Option (Int × List UInt8) :=
  let digits := s.takeWhile isDigit
  if digits = [] then none
  else some (wrapInt (digits.foldl (fun value c => wrapInt (value * 10 + (c.toNat - 48))) 0 * sign), s.dropWhile isDigit)

/-- `parse_int_token`: the number, and what is behind it. -/
def parseIntToken (text : List UInt8) : Option (Int × List UInt8) :=
  match text.dropWhile isBlank with
  | 45 :: s => parseDigits (-1) s
  | 43 :: s => parseDigits 1 s
  | s => parseDigits 1 s

def parseFour (text : List UInt8) : Option (Int × Int × Int × Int) :=
  (parseIntToken text).bind (fun a => (parseIntToken a.2).bind (fun b => (parseIntToken b.2).bind (fun c =>
    (parseIntToken c.2).map (fun d => (a.1, b.1, c.1, d.1)))))

def hexValue (c : UInt8) : Option Nat :=
  if 48 ≤ c ∧ c ≤ 57 then some (c.toNat - 48)
  else if 65 ≤ c ∧ c ≤ 70 then some (10 + (c.toNat - 65))
  else if 97 ≤ c ∧ c ≤ 102 then some (10 + (c.toNat - 97))
  else none

/-- The bytes of a row up to the first that is not written in hexadecimal. -/
def hexBytes : List UInt8 → List UInt8
  | hi :: lo :: rest =>
    match hexValue hi, hexValue lo with
    | some hi, some lo => UInt8.ofNat (16 * hi + lo) :: hexBytes rest
    | _, _ => []
  | _ => []

def memset (mem : Mem) (a n : UInt32) : Mem := writeBytes mem a.toNat (List.replicate n.toNat 0)

/-- The variables of `parse_bdf_font`; `glyphData` is set when `have_bbox` is. -/
structure Bdf where
  bboxWidth : UInt32
  bboxHeight : UInt32
  rowBytes : UInt32
  glyphStride : UInt32
  glyphData : Option UInt32
  maxEncoding : Int
  maxDwidth : UInt32
  inGlyph : Bool
  glyphEncoding : Int
  glyphHeight : UInt32
  bitmapActive : Bool
  bitmapRow : UInt32
  glyphTarget : Option UInt32
  mem : Mem

def glyphCapacity : UInt32 := 256

/-- `"FONTBOUNDINGBOX"` -/
def bboxWord : List UInt8 := [70, 79, 78, 84, 66, 79, 85, 78, 68, 73, 78, 71, 66, 79, 88]

/-- `"STARTCHAR"` -/
def startcharWord : List UInt8 := [83, 84, 65, 82, 84, 67, 72, 65, 82]

/-- `"ENDCHAR"` -/
def endcharWord : List UInt8 := [69, 78, 68, 67, 72, 65, 82]

/-- `"ENCODING"` -/
def encodingWord : List UInt8 := [69, 78, 67, 79, 68, 73, 78, 71]

/-- `"DWIDTH"` -/
def dwidthWord : List UInt8 := [68, 87, 73, 68, 84, 72]

/-- `"BBX"` -/
def bbxWord : List UInt8 := [66, 66, 88]

/-- `"BITMAP"` -/
def bitmapWord : List UInt8 := [66, 73, 84, 77, 65, 80]

/-- A line `FONTBOUNDINGBOX`, with the text behind the word. -/
def Bdf.readBbox (kalloc : UInt32 → Option UInt32) (s : Bdf) (text : List UInt8) : Option Bdf :=
  match parseFour text with
  | none => none
  | some (width, height, _, _) =>
    if width ≤ 0 ∨ height ≤ 0 then none
    else
      let bboxWidth := UInt32.ofNat width.toNat
      let bboxHeight := UInt32.ofNat height.toNat
      let rowBytes := (bboxWidth + 7) / 8
      let glyphStride := rowBytes * bboxHeight
      if glyphStride = 0 then none
      else
        (kalloc (glyphStride * glyphCapacity)).map (fun data =>
          { s with
            bboxWidth, bboxHeight, rowBytes, glyphStride
            glyphData := some data
            mem := memset s.mem data (glyphStride * glyphCapacity) })

def Bdf.readEncoding (s : Bdf) (data : UInt32) (text : List UInt8) : Bdf :=
  match parseIntToken text with
  | none => s
  | some (value, _) =>
    if 0 ≤ value ∧ value < 256 then
      let target := data + UInt32.ofNat value.toNat * s.glyphStride
      { s with
        glyphEncoding := value
        glyphTarget := some target
        mem := memset s.mem target s.glyphStride
        maxEncoding := max s.maxEncoding value }
    else { s with glyphEncoding := value, glyphTarget := none }

def Bdf.readDwidth (s : Bdf) (text : List UInt8) : Bdf :=
  match parseIntToken text with
  | none => s
  | some (value, _) =>
    if 0 < value ∧ s.maxDwidth < UInt32.ofNat value.toNat then { s with maxDwidth := UInt32.ofNat value.toNat } else s

def Bdf.readBbx (s : Bdf) (text : List UInt8) : Option Bdf :=
  (parseFour text).map (fun values => if 0 < values.2.1 then { s with glyphHeight := UInt32.ofNat values.2.1.toNat } else s)

def Bdf.readRow (s : Bdf) (target : UInt32) (text : List UInt8) : Option Bdf :=
  if 128 < s.rowBytes then none
  else
    let row := (hexBytes text ++ List.replicate s.rowBytes.toNat 0).take s.rowBytes.toNat
    some
      { s with
        mem := if s.bitmapRow < s.glyphHeight ∧ s.bitmapRow < s.bboxHeight then
            writeBytes s.mem (target + s.bitmapRow * s.rowBytes).toNat row else s.mem
        bitmapRow := s.bitmapRow + 1
        bitmapActive := if s.glyphHeight ≤ s.bitmapRow + 1 then false else s.bitmapActive }

/-- A trimmed line that is not empty, and the byte behind it, which the comparison with `STARTCHAR` may reach. -/
def Bdf.readLine (kalloc : UInt32 → Option UInt32) (s : Bdf) (text : List UInt8) (behind : UInt8) : Option Bdf :=
  match s.glyphData with
  | none => if bboxWord.isPrefixOf text then s.readBbox kalloc (text.drop 15) else some s
  | some data =>
    if 8 ≤ text.length ∧ startcharWord.isPrefixOf (text ++ [behind]) then
      some { s with inGlyph := true, glyphEncoding := -1, glyphHeight := s.bboxHeight, bitmapActive := false, bitmapRow := 0,
                    glyphTarget := none }
    else if s.inGlyph ∧ 8 ≤ text.length ∧ endcharWord.isPrefixOf text then
      some { s with inGlyph := false, bitmapActive := false, glyphTarget := none }
    else if s.inGlyph ∧ encodingWord.isPrefixOf text then some (s.readEncoding data (text.drop 8))
    else if s.inGlyph ∧ dwidthWord.isPrefixOf text then some (s.readDwidth (text.drop 6))
    else if s.inGlyph ∧ bbxWord.isPrefixOf text then s.readBbx (text.drop 3)
    else if s.inGlyph ∧ bitmapWord.isPrefixOf text then some { s with bitmapActive := true, bitmapRow := 0 }
    else if s.bitmapActive ∧ 0 < s.rowBytes then
      match s.glyphTarget with
      | none => some s
      | some target => s.readRow target text
    else some s

/-- One turn of the loop, for a line and the byte that ends it. -/
def Bdf.turn (kalloc : UInt32 → Option UInt32) (s : Bdf) (line : List UInt8 × UInt8) : Option Bdf :=
  let text := trimSpaces line.1
  if text = [] then some s
  else s.readLine kalloc text (((line.1.dropWhile isBlank).drop text.length ++ [line.2]).headD 0)

/-- The lines of a buffer; what ends the last one is behind the buffer. -/
def Buffer.lines (b : Buffer) : List (List UInt8 × UInt8) :=
  let lines := (cells b.bytes b.size.toNat).splitOn 10
  lines.dropLast.map (·, 10) ++ lines.getLast?.toList.map (·, b.bytes b.size.toNat)

def Bdf.start (mem : Mem) : Bdf := ⟨0, 0, 0, 0, none, -1, 0, false, -1, 0, false, 0, none, mem⟩

def Bdf.finish (s : Bdf) : Option ParsedFont :=
  match s.glyphData with
  | none => none
  | some data =>
    let maxPossibleWidth := s.rowBytes * 8
    let resolvedWidth := if 0 < s.maxDwidth then (if s.maxDwidth < maxPossibleWidth then s.maxDwidth else maxPossibleWidth) else s.bboxWidth
    let resolvedWidth := if resolvedWidth = 0 then (if s.bboxWidth ≠ 0 then s.bboxWidth else 1) else resolvedWidth
    let width := if maxPossibleWidth < resolvedWidth then maxPossibleWidth else resolvedWidth
    let glyphCount := if 0 ≤ s.maxEncoding then UInt32.ofNat (s.maxEncoding + 1).toNat else glyphCapacity
    let glyphCount := if glyphCapacity < glyphCount then glyphCapacity else glyphCount
    some ⟨data, s.glyphStride, s.bboxHeight, width, 0, glyphCount, false⟩

structure Font where
  base : Option UInt32
  stride : UInt32
  heightPx : UInt32
  widthPx : UInt32
  rowBytes : UInt32
  firstChar : UInt32
  charCount : UInt32
  lsbLeft : Bool

def configureFontMetrics (f : Font) (height stride widthHint firstChar count : UInt32) (lsbLeft : Bool) : Option Font :=
  if height = 0 ∨ stride = 0 then none
  else if stride % height ≠ 0 then none
  else
    let rowBytes := stride / height
    if rowBytes = 0 then none
    else
      let width := if widthHint ≠ 0 then widthHint else rowBytes * 8
      let width := if width = 0 ∨ rowBytes * 8 < width then rowBytes * 8 else width
      let width := if width = 0 then 8 else width
      some { f with heightPx := height, stride, rowBytes, widthPx := width, firstChar, charCount := if count ≠ 0 then count else 256,
                    lsbLeft }

/-- `adopt_font_candidate`, without the drawing. -/
def adoptFontCandidate (f : Font) (candidate : ParsedFont) : Option Font :=
  (configureFontMetrics f candidate.height candidate.stride candidate.width candidate.firstChar candidate.glyphCount
    candidate.lsbLeft).map (fun f => { f with base := some candidate.glyphBase })

def glyphForChar (f : Font) (uc : UInt8) : Option UInt32 :=
  match f.base with
  | none => none
  | some base =>
    let code := uc.toUInt32
    if f.stride = 0 then none
    else if f.firstChar ≤ code ∧ code < f.firstChar + f.charCount then some (base + (code - f.firstChar) * f.stride)
    else if f.firstChar = 0 ∧ code < f.charCount then some (base + code * f.stride)
    else if f.firstChar ≤ 63 ∧ 63 < f.firstChar + f.charCount then some (base + (63 - f.firstChar) * f.stride)
    else none

/-! ## What an accepted font is to be -/

/-- The glyph at `addr` is one of the font's, and all of it is in the `available` bytes from the base on. -/
def ParsedFont.Whole (f : ParsedFont) (available : Nat) (addr : UInt32) : Prop :=
  ∃ i < f.glyphCount.toNat, addr = f.glyphBase + UInt32.ofNat (i * f.stride.toNat) ∧ i * f.stride.toNat + f.stride.toNat ≤ available

/-- The sizes agree in exact integers, and once the font is in use every character has a whole glyph. -/
structure ParsedFont.Sound (f : ParsedFont) (rowBytes available : Nat) : Prop where
  stride : f.stride.toNat = f.height.toNat * rowBytes
  width : f.width.toNat ≤ 8 * rowBytes
  count : f.glyphCount.toNat * f.stride.toNat ≤ available
  glyphs : ∀ old new uc addr, adoptFontCandidate old f = some new → glyphForChar new uc = some addr → f.Whole available addr

section Fonts

variable {b : Buffer} {f : ParsedFont} {s s' : Bdf} {kalloc : UInt32 → Option UInt32} {lsbLeft : Bool} {available : Nat}

structure Bdf.Inv (s : Bdf) : Prop where
  stride : s.glyphStride = s.rowBytes * s.bboxHeight
  encoding : -1 ≤ s.maxEncoding ∧ s.maxEncoding < 256

theorem Bdf.Inv.readBbox (h : s.Inv) {text : List UInt8} (hread : s.readBbox kalloc text = some s') : s'.Inv := by
  unfold Bdf.readBbox at hread
  split at hread
  · cases hread
  dsimp only at hread
  split at hread
  · cases hread
  split at hread
  · cases hread
  obtain ⟨data, -, rfl⟩ := map_eq_some_iff.mp hread
  exact ⟨rfl, h.encoding⟩

theorem Bdf.Inv.readLine (h : s.Inv) {text : List UInt8} {behind : UInt8} (hread : s.readLine kalloc text behind = some s') :
    s'.Inv := by
  unfold Bdf.readLine at hread
  split at hread
  · split at hread
    · exact h.readBbox hread
    · exact some.inj hread ▸ h
  split_ifs at hread
  · cases hread
    exact ⟨h.stride, h.encoding⟩
  · cases hread
    exact ⟨h.stride, h.encoding⟩
  · cases hread
    unfold Bdf.readEncoding
    split
    · exact h
    · split
      · rename_i hvalue
        exact ⟨h.stride, by have hold := h.encoding; dsimp only; omega⟩
      · exact ⟨h.stride, h.encoding⟩
  · cases hread
    unfold Bdf.readDwidth
    split
    · exact h
    · split
      · exact ⟨h.stride, h.encoding⟩
      · exact h
  · obtain ⟨values, -, rfl⟩ := map_eq_some_iff.mp hread
    split
    · exact ⟨h.stride, h.encoding⟩
    · exact h
  · cases hread
    exact ⟨h.stride, h.encoding⟩
  · split at hread
    · exact some.inj hread ▸ h
    · unfold Bdf.readRow at hread
      split at hread
      · cases hread
      · cases hread
        exact ⟨h.stride, h.encoding⟩
  · exact some.inj hread ▸ h

theorem Bdf.Inv.finish (h : s.Inv) (hf : s.finish = some f) :
    f.stride = s.glyphStride ∧ f.height = s.bboxHeight ∧ f.firstChar = 0 ∧ f.glyphCount ≠ 0 ∧ f.width ≤ s.rowBytes * 8 := by
  have hencoding := h.encoding
  unfold Bdf.finish at hf
  split at hf
  · cases hf
  cases hf
  have hmin (a b : UInt32) : (if a < b then a else b) ≤ a ∧ (a ≠ 0 → b ≠ 0 → (if a < b then a else b) ≠ 0) := by
    split
    · exact ⟨UInt32.le_refl a, fun ha _ => ha⟩
    · rename_i hle
      exact ⟨UInt32.not_lt.mp hle, fun _ hb => hb⟩
  refine ⟨rfl, rfl, rfl, (hmin _ _).2 (by decide) ?_, (hmin _ _).1⟩
  split
  · intro hzero
    have hnum := congrArg UInt32.toNat hzero
    rw [UInt32.toNat_ofNat', UInt32.toNat_zero] at hnum
    omega
  · decide

end Fonts

section Files

end Files

end ProOS.Vbe
