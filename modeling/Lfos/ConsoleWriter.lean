import Lfos.Searches
import Lfos.Words
import Mathlib.Data.List.GetD
import Mathlib.Data.List.TakeWhile

/-!
# Text on the framebuffer console

A text is formatted into a buffer of 512 bytes and written character by character. An escape
character and a bracket begin a sequence of numbers, which ends with an `m` and selects a colour. The numbers
are accumulated from whatever characters there are, as many of them as there are semicolons, and the
character of a glyph is a signed number that is multiplied to an index of the font.

What the writer accesses is recorded. The pixels are left out, and the colours are kept since they come from the palette.
The sequence takes its two first characters in one round, so that the zeros behind a text that ends
within a sequence may be read as part of it.
-/

namespace Lfos.ConsoleWriter

open Searches Words List Function

abbrev Byte := BitVec 8

def newLine : Byte := 0x0A#8
def carriageReturn : Byte := 0x0D#8
def escape : Byte := 0x1B#8
def bracket : Byte := 0x5B#8
def semicolon : Byte := 0x3B#8
def letterM : Byte := 0x6D#8

/-- `FONT_WIDTH + FONT_COL_SPACING` and `FONT_HEIGHT + FONT_ROW_SPACING` -/
def fontWidth : Nat := 8
def fontHeight : Nat := 8
def columnWidth : Int := 8
def rowHeight : Int := 10

abbrev Color := Int × Int × Int

/-- The part of `fbconsole_data` that says where the next character goes. The fields are `int` there. Positions that
overflow one, which no screen has the pixels for, are left out: the numbers here have no bound. -/
structure Screen where
  width : Int
  height : Int
  cols : Int
  rows : Int
  currentCol : Int
  currentRow : Int

structure Console where
  fb : Nat
  screen : Screen
  foreground : Color
  background : Color
  palette : Nat → Color

/-- The elements of arrays that are read or written, by their index. -/
inductive Access where
  | ansiArgs (index : Nat)
  | palette (index : Int)
  | font (index : Int)
  | buffer (index : Nat)
deriving DecidableEq

def Access.InBounds : Access → Prop
  | .ansiArgs index => index < 8
  | .palette index => 0 ≤ index ∧ index < 16
  | .font index => 0 ≤ index ∧ index < 256 * 8
  | .buffer index => index < 512

abbrev Inside (accesses : List Access) : Prop := ∀ access ∈ accesses, access.InBounds

/-- `fbconsole_next_line` -/
def Screen.nextLine (screen : Screen) : Screen :=
  if screen.currentRow + 1 = screen.rows then { screen with currentCol := 0 }
  else { screen with currentCol := 0, currentRow := screen.currentRow + 1 }

/-- The elements of the font that `fbconsole_draw_char` reads. -/
def drawChar (screen : Screen) (startX startY : Int) (c : Byte) : List Access :=
  ((range fontHeight).takeWhile (fun (y : Nat) => (y : Int) + startY < screen.height)).flatMap (fun (y : Nat) =>
    ((range fontWidth).takeWhile (fun (x : Nat) => (x : Int) + startX < screen.width)).map (fun _ =>
      .font (c.toInt * fontHeight + y)))

/-- Where the next character goes after one was drawn. -/
def Screen.advance (screen : Screen) : Screen :=
  if screen.currentCol + 1 = screen.cols then { screen with currentCol := screen.currentCol + 1 }.nextLine
  else { screen with currentCol := screen.currentCol + 1 }

/-- The local variables of `fbconsole_write`, with what was accessed so far. -/
structure Writer where
  console : Console
  i : Nat
  count : Int
  insideAnsiSequence : Bool
  ansiCommand : Int
  ansiArgs : Nat → Int
  ansiParseStep : Nat
  broken : Bool
  log : List Access

def Writer.record (writer : Writer) (accesses : List Access) : Writer := { writer with log := writer.log ++ accesses }

/-- Append a digit to a number. -/
def digit (number : Int) (c : Byte) : Int := i32 (i32 (number * 10) + (c.toInt - 48))

/-- The end of a sequence. The background of a sequence with three components is the foreground. -/
def Writer.select (writer : Writer) : Writer :=
  let color := (writer.ansiArgs 1, writer.ansiArgs 2, writer.ansiArgs 3)
  let chosen := writer.console.palette (writer.ansiArgs 1).toNat
  let fromPalette := [Access.ansiArgs 0, .ansiArgs 1, .palette (writer.ansiArgs 1)]
  let components := [Access.ansiArgs 0, .ansiArgs 1, .ansiArgs 2, .ansiArgs 3]
  if writer.ansiCommand = 38 then
    if writer.ansiArgs 0 = 5 then
      { writer with console := { writer.console with foreground := chosen } }.record fromPalette
    else if writer.ansiArgs 0 = 2 then
      { writer with console := { writer.console with foreground := color } }.record components
    else writer.record [.ansiArgs 0]
  else if writer.ansiCommand = 48 then
    if writer.ansiArgs 0 = 5 then
      { writer with console := { writer.console with background := chosen } }.record fromPalette
    else if writer.ansiArgs 0 = 2 then
      { writer with console := { writer.console with foreground := color } }.record components
    else writer.record [.ansiArgs 0]
  else writer

/-- A character of a sequence. -/
def Writer.sequence (writer : Writer) (c : Byte) : Writer :=
  if c = semicolon then { writer with ansiParseStep := writer.ansiParseStep + 1 }
  else if c = letterM then { writer with insideAnsiSequence := false }.select
  else if writer.ansiParseStep = 0 then { writer with ansiCommand := digit writer.ansiCommand c }
  else
    { writer with
      ansiArgs := update writer.ansiArgs (writer.ansiParseStep - 1)
        (digit (writer.ansiArgs (writer.ansiParseStep - 1)) c) }.record [.ansiArgs (writer.ansiParseStep - 1)]

def Writer.setScreen (writer : Writer) (screen : Screen) : Writer :=
  { writer with console := { writer.console with screen := screen } }

def Writer.draw (writer : Writer) (c : Byte) : Writer :=
  let screen := writer.console.screen
  (writer.setScreen screen.advance).record
    (drawChar screen (screen.currentCol * columnWidth) (screen.currentRow * rowHeight) c)

/-- A character that is not part of a sequence; `i` is the index of the next one already. -/
def Writer.plain (buffer : List Byte) (writer : Writer) (c : Byte) : Writer :=
  if c = newLine then writer.setScreen writer.console.screen.nextLine
  else if c = carriageReturn then writer.setScreen { writer.console.screen with currentCol := 0 }
  else if c = escape then
    if buffer.getD writer.i 0 = bracket then
      { writer with
        i := writer.i + 1
        insideAnsiSequence := true
        ansiCommand := 0
        ansiParseStep := 0
        ansiArgs := fun _ => 0 }.record [.buffer writer.i]
    else (writer.record [.buffer writer.i]).draw c
  else if c = 0 then { writer with broken := true }
  else writer.draw c

/-- One round of the loop. -/
def Writer.next (buffer : List Byte) (writer : Writer) : Writer :=
  let c := buffer.getD writer.i 0
  let read := { writer with i := writer.i + 1, count := writer.count - 1 }
  if writer.insideAnsiSequence then read.sequence c else read.plain buffer c

/-- The loop is left. -/
def Writer.finished (writer : Writer) : Option Writer :=
  if writer.count = 0 ∨ 512 ≤ writer.i ∨ writer.broken = true then some writer else none

/-- The buffer that holds a formatted text: as much of it as there is room for, and zeros. -/
def formatted (text : List Byte) : List Byte := text.take 511 ++ replicate (512 - (text.take 511).length) 0

def Writer.start (console : Console) (text : List Byte) : Writer where
  console
  i := 0
  count := i32 text.length
  insideAnsiSequence := false
  ansiCommand := 0
  ansiArgs _ := 0
  ansiParseStep := 0
  broken := false
  log := []

/-- The writer when the text was written, in at most as many rounds as there are bytes in the buffer. -/
def fbconsoleWrite (console : Console) (text : List Byte) : Option Writer :=
  if console.fb = 0 then some (.start console text)
  else search Writer.finished (Writer.next (formatted text)) 513 (.start console text)

/-- The text is written in time, and nothing outside of an array is accessed. -/
def Safe (console : Console) (text : List Byte) : Prop :=
  ∃ written, fbconsoleWrite console text = some written ∧ ∀ access ∈ written.log, access.InBounds

/-- The parts of a text. -/
inductive Token where
  | newLine
  | carriageReturn
  | glyph (c : Byte)
  /-- The characters of a sequence in front of the `m`, and whether there is one. -/
  | sequence (body : List Byte) (complete : Bool)

/-- The bytes that are read in a number of rounds, all of them if it is negative. -/
def reading (count : Int) (bytes : List Byte) : List Byte := if count < 0 then bytes else bytes.take count.toNat

/-- The characters up to the end of a sequence. -/
def bodyOf (count : Int) (bytes : List Byte) : List Byte := (reading count bytes).takeWhile (· ≠ letterM)

def completeIn (count : Int) (bytes : List Byte) : Bool := decide (letterM ∈ reading count bytes)

/-- The parts of a text that is read in a number of rounds. -/
def tokens (count : Int) : List Byte → List Token
  | [] => []
  | c :: rest =>
    if count = 0 then []
    else if c = newLine then .newLine :: tokens (count - 1) rest
    else if c = carriageReturn then .carriageReturn :: tokens (count - 1) rest
    else if c = escape ∧ rest.head? = some bracket then
      .sequence (bodyOf (count - 1) rest.tail) (completeIn (count - 1) rest.tail) ::
        if completeIn (count - 1) rest.tail then
          tokens (count - 1 - (bodyOf (count - 1) rest.tail).length - 1)
            (rest.tail.drop ((bodyOf (count - 1) rest.tail).length + 1))
        else []
    else if c = 0 then []
    else .glyph c :: tokens (count - 1) rest
termination_by bytes => bytes.length
decreasing_by all_goals simp only [length_cons, length_drop, length_tail]; omega

/-- The characters of a sequence that belong to the number behind some semicolons. -/
def field : Nat → List Byte → List Byte
  | _, [] => []
  | 0, c :: rest => if c = semicolon then [] else c :: field 0 rest
  | index + 1, c :: rest => if c = semicolon then field index rest else field (index + 1) rest

def number (characters : List Byte) : Int := characters.foldl digit 0

/-- A colour of the palette that is selected exists. -/
def Selectable (values : Nat → Int) : Prop :=
  values 0 = 38 ∨ values 0 = 48 → values 1 = 5 → 0 ≤ values 2 ∧ values 2 < 16

/-- A character is drawn inside of the framebuffer. -/
def Screen.Visible (screen : Screen) : Prop :=
  screen.currentCol * columnWidth < screen.width ∧ screen.currentRow * rowHeight < screen.height

/-- There are no numbers behind the eighth parameter of a sequence, the palette has the colours that are selected,
and the characters that are drawn are ASCII. -/
def Tame : Screen → List Token → Prop
  | _, [] => True
  | screen, .newLine :: rest => Tame screen.nextLine rest
  | screen, .carriageReturn :: rest => Tame { screen with currentCol := 0 } rest
  | screen, .glyph c :: rest => (screen.Visible → c.toNat < 128) ∧ Tame screen.advance rest
  | screen, .sequence body complete :: rest =>
    (∀ index, field index body ≠ [] → index ≤ 8) ∧ (complete = true → Selectable (fun index => number (field index body))) ∧
      Tame screen rest

section

variable {count : Int} {c : Byte} {rest bytes : List Byte} {screen : Screen} {step : Nat} {values : Nat → Int}

theorem reading_cons (more : count ≠ 0) : reading count (c :: rest) = c :: reading (count - 1) rest := by
  unfold reading
  by_cases negative : count < 0
  · rw [if_pos negative, if_pos (by omega)]
  · obtain ⟨left, countIs⟩ : ∃ left : Nat, count = left + 1 := ⟨(count - 1).toNat, by omega⟩
    rw [if_neg negative, if_neg (by omega), countIs]
    simp

theorem bodyOf_end (more : count ≠ 0) : bodyOf count (letterM :: rest) = [] ∧ completeIn count (letterM :: rest) = true := by
  rw [bodyOf, completeIn, reading_cons more]
  simp

theorem bodyOf_cons (more : count ≠ 0) (different : c ≠ letterM) : bodyOf count (c :: rest) = c :: bodyOf (count - 1) rest ∧
    completeIn count (c :: rest) = completeIn (count - 1) rest := by
  rw [bodyOf, completeIn, reading_cons more]
  simp [different, different.symm, bodyOf, completeIn]

/-- The first number of a sequence and the others. -/
theorem limits_iff (bytes : List Byte) : (∀ index, field index bytes ≠ [] → step + index ≤ 8) ↔
    (field 0 bytes ≠ [] → step ≤ 8) ∧ ∀ index, field (index + 1) bytes ≠ [] → step + (index + 1) ≤ 8 :=
  Nat.and_forall_add_one.symm

/-- What is left to read of a sequence. -/
def Left (screen : Screen) (step : Nat) (values : Nat → Int) (count : Int) (bytes : List Byte) : Prop :=
  (∀ index, field index (bodyOf count bytes) ≠ [] → step + index ≤ 8) ∧ (completeIn count bytes = true →
      Selectable (fun index =>
        (if index < step then [] else field (index - step) (bodyOf count bytes)).foldl digit (values index)) ∧
      Tame screen (tokens (count - (bodyOf count bytes).length - 1) (bytes.drop ((bodyOf count bytes).length + 1))))

/-- Nothing is left to read. -/
theorem left_nothing (nothing : reading count bytes = []) : Left screen step values count bytes := by
  rw [Left, bodyOf, completeIn, nothing]
  simp [field]

theorem left_semicolon (more : count ≠ 0) :
    Left screen step values count (semicolon :: rest) ↔ Left screen (step + 1) values (count - 1) rest := by
  obtain ⟨body, complete⟩ := bodyOf_cons more (show semicolon ≠ letterM by decide)
  rw [Left, Left, body, complete]
  generalize bodyOf (count - 1) rest = tail
  have fields (index : Nat) : (if index < step then [] else field (index - step) (semicolon :: tail)) =
      if index < step + 1 then [] else field (index - (step + 1)) tail := by
    rcases lt_trichotomy index step with before | rfl | behind
    · grind
    · grind [field]
    · rw [show index - step = index - (step + 1) + 1 by omega]
      grind [field]
  have limits : (∀ index, field index (semicolon :: tail) ≠ [] → step + index ≤ 8) ↔
      ∀ index, field index tail ≠ [] → step + 1 + index ≤ 8 := by
    rw [limits_iff]
    simp [field, add_assoc, add_comm 1]
  have position : count - (tail.length + 1 : Nat) - 1 = count - 1 - tail.length - 1 := by omega
  rw [limits]
  simp only [fields, length_cons, drop_succ_cons, position]

theorem left_end (more : count ≠ 0) :
    Left screen step values count (letterM :: rest) ↔ Selectable values ∧ Tame screen (tokens (count - 1) rest) := by
  obtain ⟨body, complete⟩ := @bodyOf_end _ rest more
  rw [Left, body, complete]
  simp [field]

theorem left_character (more : count ≠ 0) (notSemicolon : c ≠ semicolon) (notEnd : c ≠ letterM) :
    Left screen step values count (c :: rest) ↔
    step ≤ 8 ∧ Left screen step (update values step (digit (values step) c)) (count - 1) rest := by
  obtain ⟨body, complete⟩ := bodyOf_cons more notEnd
  rw [Left, Left, body, complete]
  generalize bodyOf (count - 1) rest = tail
  have first : field 0 (c :: tail) = c :: field 0 tail := if_neg notSemicolon
  have later (index : Nat) : field (index + 1) (c :: tail) = field (index + 1) tail := if_neg notSemicolon
  have fields (index : Nat) :
      (if index < step then [] else field (index - step) (c :: tail)).foldl digit (values index) =
        (if index < step then [] else field (index - step) tail).foldl digit
          (update values step (digit (values step) c) index) := by
    rcases lt_trichotomy index step with before | rfl | behind
    · grind [update_apply]
    · grind [update_apply]
    · rw [show index - step = index - (step + 1) + 1 by omega]
      grind [update_apply]
  have limits : (∀ index, field index (c :: tail) ≠ [] → step + index ≤ 8) ↔
      step ≤ 8 ∧ ∀ index, field index tail ≠ [] → step + index ≤ 8 := by
    rw [limits_iff, limits_iff tail, first]
    simp only [later, ne_eq, reduceCtorEq, not_false_eq_true, true_implies]
    exact and_congr_right (fun small => (and_iff_right (fun _ => small)).symm)
  have position : count - (tail.length + 1 : Nat) - 1 = count - 1 - tail.length - 1 := by omega
  rw [limits, and_assoc]
  simp only [fields, length_cons, drop_succ_cons, position]

/-- A sequence that was just begun. -/
theorem left_start (bytes : List Byte) : Left screen 0 (fun _ => 0) count bytes ↔
    Tame screen (.sequence (bodyOf count bytes) (completeIn count bytes) :: if completeIn count bytes then
    tokens (count - (bodyOf count bytes).length - 1) (bytes.drop ((bodyOf count bytes).length + 1)) else []) := by
  rw [Left]
  cases completeIn count bytes <;> simp [number, Tame]

end

section

variable {buffer : List Byte} {writer : Writer}

/-- The number behind some semicolons, as far as it was read. -/
def Writer.value (writer : Writer) (index : Nat) : Int :=
  if index = 0 then writer.ansiCommand else writer.ansiArgs (index - 1)

/-- What the bytes that are left have to be. -/
def Rest (buffer : List Byte) (writer : Writer) : Prop :=
  if writer.broken = true then True
  else if writer.insideAnsiSequence = true then
    Left writer.console.screen writer.ansiParseStep writer.value writer.count (buffer.drop writer.i)
  else Tame writer.console.screen (tokens writer.count (buffer.drop writer.i))

theorem rest_inside (unbroken : writer.broken = false) (inside : writer.insideAnsiSequence = true) : Rest buffer writer ↔
    Left writer.console.screen writer.ansiParseStep writer.value writer.count (buffer.drop writer.i) := by
  rw [Rest, unbroken, inside, if_neg (by decide), if_pos rfl]

theorem rest_outside (unbroken : writer.broken = false) (outside : writer.insideAnsiSequence = false) : Rest buffer writer ↔
    Tame writer.console.screen (tokens writer.count (buffer.drop writer.i)) := by
  rw [Rest, unbroken, outside, if_neg (by decide), if_neg (by decide)]

/-- Nothing was accessed outside of the arrays, and nothing will be. -/
def Good (buffer : List Byte) (writer : Writer) : Prop :=
  Inside writer.log ∧ Rest buffer writer

theorem good_record (accesses : List Access) : Inside (writer.record accesses).log ↔
    Inside writer.log ∧ Inside accesses := forall_mem_append

/-- The pixels of a row or a column that are drawn. -/
theorem first_seen {start limit : Int} (seen : start < limit) :
    0 ∈ (range 8).takeWhile (fun (offset : Nat) => (offset : Int) + start < limit) := by
  have range : range 8 = 0 :: [1, 2, 3, 4, 5, 6, 7] := rfl
  rw [range, takeWhile_cons_of_pos (by simpa using seen)]
  exact mem_cons_self

theorem seen_of_mem {start limit : Int} {offset : Nat}
    (member : offset ∈ (range 8).takeWhile (fun (offset : Nat) => (offset : Int) + start < limit)) : start < limit := by
  have seen : offset + start < limit := by simpa using mem_takeWhile_imp member
  omega

/-- A glyph is in the font if it is ASCII or none of it is seen. -/
theorem drawChar_iff (screen : Screen) (c : Byte) :
    Inside (drawChar screen (screen.currentCol * columnWidth) (screen.currentRow * rowHeight) c) ↔
    (screen.Visible → c.toNat < 128) := by
  have sign := BitVec.toInt_eq_toNat_cond c
  constructor
  · intro all visible
    have first := all (.font (c.toInt * fontHeight + (0 : Nat)))
      (mem_flatMap.mpr ⟨0, first_seen visible.2, mem_map.mpr ⟨0, first_seen visible.1, rfl⟩⟩)
    unfold fontHeight at first
    obtain ⟨low, _⟩ := first
    split at sign <;> omega
  · intro ascii access member
    obtain ⟨y, inRows, inColumns⟩ := mem_flatMap.mp member
    obtain ⟨x, inside, rfl⟩ := mem_map.mp inColumns
    have small := ascii ⟨seen_of_mem inside, seen_of_mem inRows⟩
    have row : y < 8 := mem_range.mp ((takeWhile_sublist _).subset inRows)
    unfold fontHeight
    constructor <;> split at sign <;> omega

/-- A sequence that ends selects a colour. -/
theorem select_good (writer : Writer) : Inside writer.select.log ↔
    Inside writer.log ∧ Selectable writer.value := by
  have command : writer.value 0 = writer.ansiCommand := rfl
  have kind : writer.value 1 = writer.ansiArgs 0 := rfl
  have chosen : writer.value 2 = writer.ansiArgs 1 := rfl
  rw [Selectable, command, kind, chosen, Writer.select]
  split_ifs <;> try rw [good_record]
  all_goals simp [Inside, Access.InBounds, *]

/-- The colours are all that a selection changes. -/
theorem select_keeps (writer : Writer) : writer.select.console.screen = writer.console.screen ∧ writer.select.i = writer.i ∧
    writer.select.count = writer.count ∧ writer.select.insideAnsiSequence = writer.insideAnsiSequence ∧
    writer.select.broken = writer.broken := by
  rw [Writer.select]
  repeat' split
  all_goals exact ⟨rfl, rfl, rfl, rfl, rfl⟩

variable {c : Byte}

/-- A character of a number changes the number it belongs to. -/
theorem value_command (first : writer.ansiParseStep = 0) (c : Byte) :
    Writer.value { writer with ansiCommand := digit writer.ansiCommand c } =
      update writer.value writer.ansiParseStep (digit (writer.value writer.ansiParseStep) c) := by
  funext index
  grind [Writer.value, update_apply]

theorem value_argument (later : writer.ansiParseStep ≠ 0) (c : Byte) : Writer.value { writer with
      ansiArgs := update writer.ansiArgs (writer.ansiParseStep - 1)
        (digit (writer.ansiArgs (writer.ansiParseStep - 1)) c) } =
      update writer.value writer.ansiParseStep (digit (writer.value writer.ansiParseStep) c) := by
  funext index
  grind [Writer.value, update_apply]

/-- A character of a sequence. -/
theorem good_sequence (unbroken : writer.broken = false) (inside : writer.insideAnsiSequence = true)
    (more : writer.count ≠ -1) : Good buffer (writer.sequence c) ↔ Inside writer.log ∧
    Left writer.console.screen writer.ansiParseStep writer.value (writer.count + 1) (c :: buffer.drop writer.i) := by
  have left : writer.count + 1 ≠ 0 := by omega
  have count : writer.count + 1 - 1 = writer.count := by omega
  rw [Writer.sequence]
  by_cases isSemicolon : c = semicolon
  · rw [isSemicolon, left_semicolon left, count]
    exact and_congr_right (fun _ => rest_inside unbroken inside)
  rw [if_neg isSemicolon]
  by_cases isEnd : c = letterM
  · obtain ⟨screen, index, rounds, outside, broken⟩ := select_keeps { writer with insideAnsiSequence := false }
    rw [if_pos isEnd, isEnd, left_end left, count, Good, select_good, rest_outside (broken.trans unbroken) outside, screen,
      index, rounds, and_assoc]
    rfl
  rw [if_neg isEnd, left_character left isSemicolon isEnd, count]
  by_cases first : writer.ansiParseStep = 0
  · have within : writer.ansiParseStep ≤ 8 := by omega
    rw [if_pos first, ← value_command first]
    refine and_congr_right (fun _ => Iff.trans ?_ (and_iff_right within).symm)
    exact rest_inside unbroken inside
  · have limit : Inside [Access.ansiArgs (writer.ansiParseStep - 1)] ↔ writer.ansiParseStep ≤ 8 := by
      rw [Inside, forall_mem_singleton, Access.InBounds]
      omega
    rw [if_neg first, ← value_argument first, Good, good_record, limit, and_assoc]
    exact and_congr_right (fun _ => and_congr_right (fun _ => rest_inside unbroken inside))

/-- A character is drawn. -/
theorem good_draw (unbroken : writer.broken = false) (outside : writer.insideAnsiSequence = false) :
    Good buffer (writer.draw c) ↔ Inside writer.log ∧
    Tame writer.console.screen (.glyph c :: tokens writer.count (buffer.drop writer.i)) := by
  rw [Good, Writer.draw, good_record, drawChar_iff, and_assoc]
  exact and_congr_right (fun _ => and_congr_right (fun _ => rest_outside unbroken outside))

section

variable (long : buffer.length = 512)
include long

/-- The byte behind an escape character. -/
theorem head_drop {index : Nat} (inside : index < 512) :
    buffer.drop index = buffer.getD index 0 :: buffer.drop (index + 1) := by
  have short : index < buffer.length := by omega
  rw [drop_eq_getElem_cons short, getD_eq_getElem _ _ short]

/-- A character outside of a sequence. -/
theorem good_plain (unbroken : writer.broken = false) (outside : writer.insideAnsiSequence = false)
    (more : writer.count ≠ -1) (next : c ≠ 0 → writer.i < 512) :
    Good buffer (writer.plain buffer c) ↔ Inside writer.log ∧
    Tame writer.console.screen (tokens (writer.count + 1) (c :: buffer.drop writer.i)) := by
  have left : writer.count + 1 ≠ 0 := by omega
  have count : writer.count + 1 - 1 = writer.count := by omega
  rw [Writer.plain, tokens, if_neg left, count]
  by_cases isLine : c = newLine
  · rw [if_pos isLine, if_pos isLine]
    exact and_congr_right (fun _ => rest_outside unbroken outside)
  rw [if_neg isLine, if_neg isLine]
  by_cases isReturn : c = carriageReturn
  · rw [if_pos isReturn, if_pos isReturn]
    exact and_congr_right (fun _ => rest_outside unbroken outside)
  rw [if_neg isReturn, if_neg isReturn]
  by_cases isEscape : c = escape
  · have inside : writer.i < 512 := next (by rw [isEscape]; decide)
    have zero : c ≠ 0 := by rw [isEscape]; decide
    have recorded : Inside (writer.record [.buffer writer.i]).log ↔
        Inside writer.log := by
      rw [good_record]
      exact and_iff_left (forall_mem_singleton.mpr inside)
    rw [if_pos isEscape, head_drop long inside]
    by_cases isBracket : buffer.getD writer.i 0 = bracket
    · rw [if_pos isBracket, if_pos ⟨isEscape, congrArg some isBracket⟩, ← left_start]
      refine and_congr recorded ?_
      exact rest_inside unbroken rfl
    · rw [if_neg isBracket, if_neg (fun both => isBracket (Option.some.inj both.2)), if_neg zero, ← head_drop long inside]
      refine Iff.trans ?_ (and_congr_left' recorded)
      exact good_draw unbroken outside
  have notBegun : ¬(c = escape ∧ (buffer.drop writer.i).head? = some bracket) := fun both => isEscape both.1
  rw [if_neg isEscape, if_neg notBegun]
  by_cases isZero : c = 0
  · rw [if_pos isZero, if_pos isZero]
    rfl
  · rw [if_neg isZero, if_neg isZero]
    exact good_draw unbroken outside

/-- A round keeps what has been and will be accessed. -/
theorem good_next (ends : buffer.getD 511 0 = 0) (unfinished : writer.finished = none) :
    Good buffer (writer.next buffer) ↔ Good buffer writer := by
  obtain ⟨more, inside, unbroken⟩ : writer.count ≠ 0 ∧ writer.i < 512 ∧ writer.broken = false := by
    rw [Writer.finished] at unfinished
    split at unfinished
    · exact nomatch unfinished
    · next running =>
      rw [not_or, not_or] at running
      exact ⟨running.1, by omega, by simpa using running.2.2⟩
  have count : writer.count - 1 + 1 = writer.count := by omega
  have next : buffer.getD writer.i 0 ≠ 0 → writer.i + 1 < 512 := by
    intro some
    by_contra last
    have here : writer.i = 511 := by omega
    exact some (here ▸ ends)
  have bytes := head_drop long inside
  rw [Writer.next]
  by_cases sequence : writer.insideAnsiSequence = true
  · have before : Good buffer writer ↔ Inside writer.log ∧ Left writer.console.screen
        writer.ansiParseStep writer.value (writer.count - 1 + 1) (buffer.getD writer.i 0 :: buffer.drop (writer.i + 1)) := by
      rw [Good, rest_inside unbroken sequence, bytes, count]
    rw [if_pos sequence, before]
    exact good_sequence unbroken sequence (by dsimp only; omega)
  · have outside : writer.insideAnsiSequence = false := by simpa using sequence
    have before : Good buffer writer ↔ Inside writer.log ∧
        Tame writer.console.screen (tokens (writer.count - 1 + 1) (buffer.getD writer.i 0 :: buffer.drop (writer.i + 1))) := by
      rw [Good, rest_outside unbroken outside, bytes, count]
    rw [if_neg sequence, before]
    exact good_plain long unbroken outside (by dsimp only; omega) next

/-- Nothing is left to read when the loop is left. -/
theorem good_finished {written : Writer} (finished : writer.finished = some written) :
    written = writer ∧ (Good buffer writer ↔ Inside writer.log) := by
  rw [Writer.finished, Option.ite_none_right_eq_some, Option.some.injEq] at finished
  obtain ⟨reason, same⟩ := finished
  refine ⟨same.symm, and_iff_left ?_⟩
  by_cases broken : writer.broken = true
  · rw [Rest, if_pos broken]
    trivial
  have unbroken : writer.broken = false := by simpa using broken
  have nothing : reading writer.count (buffer.drop writer.i) = [] := by
    rcases reason with none | behind | stopped
    · rw [none]
      rfl
    · rw [drop_eq_nil_of_le (by omega)]
      simp [reading]
    · exact absurd stopped broken
  by_cases sequence : writer.insideAnsiSequence = true
  · exact (rest_inside unbroken sequence).mpr (left_nothing nothing)
  · refine (rest_outside unbroken (by simpa using sequence)).mpr ?_
    have none : tokens writer.count (buffer.drop writer.i) = [] := by
      cases bytes : buffer.drop writer.i with
      | nil => rw [tokens]
      | cons c rest =>
        by_cases zero : writer.count = 0
        · rw [tokens, if_pos zero]
        · rw [bytes, reading_cons zero] at nothing
          exact absurd nothing (cons_ne_nil _ _)
    rw [none]
    trivial

end

theorem sequence_i (writer : Writer) (c : Byte) : (writer.sequence c).i = writer.i := by
  rw [Writer.sequence]
  split
  · rfl
  · split
    · exact (select_keeps { writer with insideAnsiSequence := false }).2.1
    · split <;> rfl

theorem plain_i (writer : Writer) (c : Byte) : writer.i ≤ (writer.plain buffer c).i := by
  rw [Writer.plain]
  repeat' split
  all_goals first | exact le_refl _ | exact Nat.le_succ _

/-- Every round reads a byte. -/
theorem next_progress (unfinished : writer.finished = none) : 512 - (writer.next buffer).i < 512 - writer.i := by
  have inside : writer.i < 512 := by
    by_contra behind
    rw [Writer.finished, if_pos (.inr (.inl (by omega)))] at unfinished
    exact nomatch unfinished
  have further : writer.i + 1 ≤ (writer.next buffer).i := by
    rw [Writer.next]
    split
    · rw [sequence_i]
    · exact plain_i { writer with i := writer.i + 1, count := writer.count - 1 } _
  omega

end

section

variable (text : List Byte)

theorem formatted_length : (formatted text).length = 512 := by
  rw [formatted, length_append, length_replicate, length_take]
  omega

theorem formatted_last : (formatted text).getD 511 0 = 0 := by
  have short : (text.take 511).length ≤ 511 := length_take_le _ _
  have inside : 511 - (text.take 511).length < 512 - (text.take 511).length := by omega
  rw [formatted, getD_append_right _ _ _ _ short, getD_replicate _ inside]

end

/-- A text is written safely exactly if there is no framebuffer or if its sequences have no numbers behind the eighth parameter,
select colours that the palette has, and only ASCII is drawn. -/
theorem write_safe_iff (console : Console) (text : List Byte) :
    Safe console text ↔ console.fb = 0 ∨ Tame console.screen (tokens (i32 text.length) (formatted text)) := by
  rw [Safe, fbconsoleWrite]
  by_cases none : console.fb = 0
  · rw [if_pos none]
    constructor
    · exact fun _ => .inl none
    · exact fun _ => ⟨_, rfl, fun access member => nomatch member⟩
  rw [if_neg none]
  have started : Good (formatted text) (.start console text) ↔
      Tame console.screen (tokens (i32 text.length) (formatted text)) := by
    exact and_iff_right (fun access member => nomatch member)
  obtain ⟨written, search⟩ : ∃ written,
      search Writer.finished (Writer.next (formatted text)) 513 (.start console text) = some written :=
    search_ends (fun writer => 512 - writer.i) (fun _ unfinished => next_progress unfinished) (Nat.lt_succ_self 512)
  -- what a round keeps is whether the accesses before and after it are all inside
  obtain ⟨last, same, finished⟩ : ∃ last, (Good (formatted text) last ↔ Good (formatted text) (.start console text)) ∧
      last.finished = some written :=
    ends_invariant ⟨_, search⟩ Iff.rfl (fun _ same unfinished =>
      (good_next (formatted_length text) (formatted_last text) unfinished).trans same)
  obtain ⟨rfl, inBounds⟩ := good_finished (formatted_length text) finished
  rw [search, ← started, ← same, inBounds]
  constructor
  · rintro ⟨other, same, all⟩
    exact .inr (Option.some.inj same ▸ all)
  · intro all
    exact ⟨written, rfl, all.resolve_left none⟩

/-- A console of 640 by 480 pixels. -/
def smallConsole : Console where
  fb := 0xFFFFFFFF90000000
  screen := ⟨640, 480, 80, 48, 0, 0⟩
  foreground := (255, 255, 255)
  background := (0, 0, 0)
  palette _ := (170, 170, 170)

/-- What is not in bounds makes a text unsafe. -/
theorem not_safe {console : Console} {text : List Byte} (access : Access)
    (member : (fbconsoleWrite console text).any (fun writer => decide (access ∈ writer.log)) = true)
    (outside : ¬access.InBounds) : ¬Safe console text := by
  rintro ⟨writer, ran, all⟩
  rw [ran] at member
  exact outside (all access (of_decide_eq_true member))

/-- The ninth parameter of a sequence, a colour behind the palette, and the glyph of a character that is not ASCII. -/
theorem text_leaves_arrays :
    ¬Safe smallConsole [0x1B#8, 0x5B#8, 0x3B#8, 0x3B#8, 0x3B#8, 0x3B#8, 0x3B#8, 0x3B#8, 0x3B#8, 0x3B#8, 0x3B#8, 0x30#8] ∧
      ¬Safe smallConsole [0x1B#8, 0x5B#8, 0x33#8, 0x38#8, 0x3B#8, 0x35#8, 0x3B#8, 0x31#8, 0x36#8, 0x6D#8] ∧
      ¬Safe smallConsole [0x80#8] := by
  refine ⟨?_, ?_, ?_⟩
  · apply not_safe (.ansiArgs 8) (by decide +kernel)
    unfold Access.InBounds
    omega
  · apply not_safe (.palette 16) (by decide +kernel)
    unfold Access.InBounds
    omega
  · apply not_safe (.font (-1024)) (by decide +kernel)
    unfold Access.InBounds
    omega

end Lfos.ConsoleWriter
