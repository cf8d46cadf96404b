/-!
# Control sequences

A text may hold sequences that tell a terminal what to do: an escape character and what belongs to
it. `visible` is a text without these sequences and without control characters. Of the control
characters only those of layout stay: tab, line feed, form feed and carriage return.

A sequence is read character by character; `SequenceState` says how far:

    ESC                      an escape sequence, up to a final character
    ESC [                    a control sequence, up to a final character
    ESC ]                    a command, up to BEL
    ESC P                    a device control string
    ESC X, ESC ^, ESC _      other strings

An escape character begins a new sequence wherever it stands, and CAN and SUB end a sequence.
A character of layout in an escape or control sequence stays, and so does the text behind it. With
the next control character the sequence goes on.
-/

namespace SpokenOrder.Text

/-! ## States -/

/-- How far a sequence has been read. -/
inductive SequenceState where
  /-- Outside of all sequences. -/
  | ground
  /-- After an escape character. -/
  | escape
  /-- In an escape sequence of more than one character. -/
  | escapeIntermediate
  /-- In a control sequence. -/
  | control
  /-- At the beginning of a device control string. -/
  | deviceEntry
  /-- In the parameters of a device control string. -/
  | deviceParameters
  /-- Between the parameters and the rest of a device control string. -/
  | deviceIntermediate
  /-- In a command. -/
  | command
  /-- In a string, up to its terminator. -/
  | string
deriving DecidableEq, Repr

namespace SequenceState

/-- Are control characters obeyed in the middle of the sequence? -/
def obeysControls : SequenceState → Bool
  | ground | escape | escapeIntermediate | control => true
  | deviceEntry | deviceParameters | deviceIntermediate | command | string => false

/-- The state after an escape character and a character from space to tilde. -/
def afterEscape (c : Char) : SequenceState :=
  if c = '[' then control
  else if c = ']' then command
  else if c = 'P' then deviceEntry
  else if c = 'X' || c = '^' || c = '_' then string
  else if c < '0' then escapeIntermediate
  else ground

/-- The state after a character from space to tilde. -/
def afterGraphic : SequenceState → Char → SequenceState
  | ground, _ => ground
  | escape, c => afterEscape c
  | escapeIntermediate, c => if c < '0' then escapeIntermediate else ground
  | control, c => if c < '@' then control else ground
  | deviceEntry, c =>
    if c < '0' then deviceIntermediate else if c < '@' then deviceParameters else string
  | deviceParameters, c =>
    if c < '0' then deviceIntermediate else if c < '<' then deviceParameters else string
  | deviceIntermediate, c => if c < '0' then deviceIntermediate else string
  | command, _ => command
  | string, _ => string

/-- Does the character hold the terminator of strings? It is a byte, so it may be one of the bytes
that encode a character. -/
def holdsTerminator (c : Char) : Bool := (String.utf8EncodeChar c).contains 0x9c

/-- The state after a character that is not from space to tilde and begins or ends no sequence by
itself. -/
def afterOther : SequenceState → Char → SequenceState
  | command, c => if c = '\x07' then ground else command
  | string, c => if holdsTerminator c then ground else string
  | state, _ => state

/-- The state after a character that does not stay. -/
def next (state : SequenceState) (c : Char) : SequenceState :=
  if c = '\x1b' then escape
  else if c = '\x18' || c = '\x1a' then ground
  else if ' ' ≤ c && c ≤ '~' then state.afterGraphic c
  else state.afterOther c

end SequenceState

/-! ## Visible text -/

/-- Is the character one of the control characters of ASCII? -/
def isControl (c : Char) : Bool := c < ' ' || c = '\x7f'

/-- Is the control character one that text is laid out with? -/
def isLayout (c : Char) : Bool := c = '\t' || c = '\n' || c = '\x0c' || c = '\r'

/-- Does a character stay? `shown` says whether the character before it did. -/
def stays (state : SequenceState) (shown : Bool) (c : Char) : Bool :=
  if isControl c then isLayout c && state.obeysControls else shown || state = .ground

/-- What stays of the rest of a text. A character outside ASCII that stays ends the sequence in
which it stands. -/
def visibleFrom (state : SequenceState) (shown : Bool) : List Char → List Char
  | [] => []
  | c :: rest =>
    if stays state shown c then c :: visibleFrom (if c ≤ '\x7f' then state else .ground) true rest
    else visibleFrom (state.next c) false rest

/-- A text without control sequences, and without control characters other than those of layout. -/
def visible (text : String) : String := String.ofList (visibleFrom .ground false text.toList)

end SpokenOrder.Text
