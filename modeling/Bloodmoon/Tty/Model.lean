import Bloodmoon.Machine.Outcome

/-!
# The line discipline

The model of `line_discipline.c`. The variables `size`, `head` and `tail` are of type `int`, and `%`
is C's, which rounds towards zero. A function has no value when the code would access the buffer
outside its bounds or when an `int` overflows.

The callbacks are recorded as events; that of a flush has the bytes that `flush_cb` reads.
-/

namespace Bloodmoon

/-- `LD_DEL`. -/
def ldDel : BitVec 8 := 127#8

/-- `LINE_DISCIPLINE_MODE_RAW` and `LINE_DISCIPLINE_MODE_CANONICAL`. -/
inductive LdMode where
  | raw
  | canonical
  deriving DecidableEq

/-- The functions of the action table: most of them only print a message. -/
inductive LdAction where
  | ignore
  | message (text : String)
  | erase
  | cret

/-- `struct line_discipline_action_table_entry`, without the field for the translation of output. -/
structure LdActionTableEntry where
  output : List (BitVec 8)
  inserti : List (BitVec 8)
  action : LdAction

/-- An entry of the table; none of them inserts anything. -/
def LdActionTableEntry.of (output : List (BitVec 8)) (action : LdAction) : LdActionTableEntry :=
  ⟨output, [0#8, 0#8, 0#8, 0#8], action⟩

/-- `default_ld_table`. -/
def defaultLdTable : ℕ → LdActionTableEntry
  | 3 => .of [0#8, 0#8, 0#8, 0#8] (.message "SIGINT is called...\n")
  | 4 => .of [0#8, 0#8, 0#8, 0#8] (.message "EOF is called...\n")
  | 7 => .of [0#8, 0#8, 0#8, 0#8] (.message "A bell is ringing...\n")
  | 8 => .of [8#8, 0x20#8, 8#8, 0#8] .erase
  | 9 => .of [0#8, 0#8, 0#8, 0#8] (.message "Horizontal tab is called...\n")
  | 10 => .of [10#8, 0#8, 0#8, 0#8] (.message "Line feed is called...\n")
  | 11 => .of [0#8, 0#8, 0#8, 0#8] (.message "Vertical tab is called...\n")
  | 12 => .of [0#8, 0#8, 0#8, 0#8] (.message "New page is called...\n")
  | 13 => .of [13#8, 10#8, 0#8, 0#8] .cret
  | 17 => .of [0#8, 0#8, 0#8, 0#8] (.message "Restart output is called...\n")
  | 19 => .of [0#8, 0#8, 0#8, 0#8] (.message "Stop output is called...\n")
  | 26 => .of [0#8, 0#8, 0#8, 0#8] (.message "SIGSTOP is called...\n")
  | 27 => .of [0#8, 0#8, 0#8, 0#8] (.message "DEL is called...\n")
  | _ => .of [0#8, 0#8, 0#8, 0#8] .ignore

/-- What the code does to the outside. -/
inductive LdEvent where
  | echo (c : BitVec 8)
  | flush (text : List (BitVec 8))
  | printf (text : String)
  deriving DecidableEq

/-- `struct line_discipline`. -/
structure LineDiscipline where
  mode : LdMode
  echo : Bool
  buffer : ℕ → BitVec 8
  size : ℤ
  head : ℤ
  tail : ℤ

namespace LineDiscipline

variable (ld : LineDiscipline)

/-- `line_discipline_create`. -/
def create (mode : LdMode) (echo : Bool) (bufferSize : ℤ) (buffer : ℕ → BitVec 8) :
    LineDiscipline :=
  ⟨mode, echo, buffer, bufferSize, 0, 0⟩

/-- `line_discipline_delete_last`. -/
def deleteLast : LineDiscipline :=
  if ld.tail = ld.head then ld else { ld with tail := (ld.tail - 1).tmod ld.size }

/-- The end of `line_discipline_insert`: when the tail meets the head, the oldest character goes. -/
def advance : LineDiscipline :=
  if ld.tail = ld.head then { ld with head := (ld.head + 1).tmod ld.size } else ld

/-- `line_discipline_insert`. -/
def insert (c : BitVec 8) : Option LineDiscipline :=
  if c = 0#8 then some ld
  else if ld.tail < 0 ∨ ld.size ≤ ld.tail then none
  else some { ld with
    buffer := Function.update ld.buffer ld.tail.toNat c
    tail := (ld.tail + 1).tmod ld.size : LineDiscipline }.advance

/-- The number of characters between the head and the tail, as `line_discipline_force_flush`
computes it. -/
def held : ℤ := (ld.tail - ld.head + ld.size).tmod ld.size

/-- `line_discipline_force_flush` in canonical mode. -/
def flushLine : Option (LineDiscipline × List LdEvent) :=
  if 2 ^ 31 ≤ ld.tail - ld.head + ld.size then none
  else if 0 < ld.held ∧ (ld.head < 0 ∨ ld.size < ld.head + ld.held) then none
  else some ({ ld with head := ld.tail },
    [.flush ((List.range ld.held.toNat).map fun i => ld.buffer (ld.head.toNat + i))])

/-- `line_discipline_force_flush`. -/
def forceFlush : Option (LineDiscipline × List LdEvent) :=
  if ld.mode = .canonical then ld.flushLine else some (ld, [])

/-- The functions of the action table. -/
def act : LdAction → Option (LineDiscipline × List LdEvent)
  | .ignore => some (ld, [])
  | .message text => some (ld, [.printf text])
  | .erase => some (ld.deleteLast, [])
  | .cret => ld.forceFlush

/-- Characters are passed to `echo_cb` if the echo is on. -/
def echoed (cs : List (BitVec 8)) : List LdEvent :=
  if ld.echo then cs.map .echo else []

/-- A character with an entry in the action table. -/
def control (e : LdActionTableEntry) :
    Option (LineDiscipline × List LdEvent) := do
  let ld ← e.inserti.foldlM insert ld
  let r ← ld.act e.action
  some (r.1, ld.echoed (e.output.takeWhile (· ≠ 0#8)) ++ r.2)

/-- `line_discipline_apply`. -/
def apply (c : BitVec 8) : Option (LineDiscipline × List LdEvent) :=
  if c ≠ ldDel ∧ (c.toInt < 0 ∨ 27 < c.toInt) then
    (ld.insert c).map fun ld' => (ld', ld'.echoed [c])
  else if c = ldDel then some (ld.deleteLast, [.echo 8#8, .echo 0x20#8, .echo 8#8])
  else ld.control (defaultLdTable c.toNat)

/-- `line_discipline_read`. -/
def read (c : BitVec 8) : Option (LineDiscipline × List LdEvent) :=
  match ld.mode with
  | .raw => some (ld, ld.echoed [c] ++ [.flush [c]])
  | .canonical => ld.apply c

end LineDiscipline

end Bloodmoon
