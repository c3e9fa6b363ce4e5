import SecretTyping.Lib.Product
import SecretTyping.Lib.Replacement

/-! The script that expands meta options to commands, and the arguments that it accepts. -/

namespace SecretTyping.Exprs

/-- How the script ends where it does not come to any commands. -/
inductive Fault where
  | exit (message : Text)
  | typeError
  deriving DecidableEq

/-- Characters that may stand around a number. -/
def isSpace (c : Char) : Bool :=
  [0x9, 0xa, 0xb, 0xc, 0xd, 0x20, 0x85, 0xa0, 0x1680, 0x2000, 0x2001, 0x2002, 0x2003, 0x2004,
    0x2005, 0x2006, 0x2007, 0x2008, 0x2009, 0x200a, 0x2028, 0x2029, 0x202f, 0x205f, 0x3000].contains
    c.toNat

/-- The digits for zero in all scripts, each of them followed by those for one to nine. -/
def decimalZeros : List Nat :=
  [0x30, 0x660, 0x6f0, 0x7c0, 0x966, 0x9e6, 0xa66, 0xae6, 0xb66, 0xbe6, 0xc66, 0xce6, 0xd66, 0xde6,
    0xe50, 0xed0, 0xf20, 0x1040, 0x1090, 0x17e0, 0x1810, 0x1946, 0x19d0, 0x1a80, 0x1a90, 0x1b50,
    0x1bb0, 0x1c40, 0x1c50, 0xa620, 0xa8d0, 0xa900, 0xa9d0, 0xa9f0, 0xaa50, 0xabf0, 0xff10, 0x104a0,
    0x10d30, 0x11066, 0x110f0, 0x11136, 0x111d0, 0x112f0, 0x11450, 0x114d0, 0x11650, 0x116c0,
    0x11730, 0x118e0, 0x11950, 0x11c50, 0x11d50, 0x11da0, 0x16a60, 0x16ac0, 0x16b50, 0x1d7ce,
    0x1d7d8, 0x1d7e2, 0x1d7ec, 0x1d7f6, 0x1e140, 0x1e2f0, 0x1e950, 0x1fbf0]

/-- The value of a digit. -/
def decimal (c : Char) : Option Nat :=
  (decimalZeros.find? fun first => first ≤ c.toNat ∧ c.toNat < first + 10).map (c.toNat - ·)

/-- Read the digits behind a first one; a single underscore may stand in front of each. -/
def digits (number : Nat) : Text → Option Nat
  | [] => some number
  | '_' :: c :: rest => (decimal c).bind fun digit => digits (10 * number + digit) rest
  | c :: rest => (decimal c).bind fun digit => digits (10 * number + digit) rest

/-- Read a number without a sign. -/
def natural : Text → Option Nat
  | [] => none
  | c :: rest => (decimal c).bind fun digit => digits digit rest

/-- A text without the space around it. -/
def strip (text : Text) : Text :=
  ((text.dropWhile isSpace).reverse.dropWhile isSpace).reverse

/-- Read an integer. -/
def int (text : Text) : Option Int :=
  match strip text with
  -- One sign may stand in front of the digits.
  | '-' :: rest => (natural rest).map fun (number : Nat) => -(number : Int)
  | '+' :: rest => (natural rest).map Int.ofNat
  | rest => (natural rest).map Int.ofNat

/-- Write an integer. -/
def str (i : Int) : Text := (toString i).toList

/-- The integers from a first one on to before another one. -/
def range (start stop : Int) : List Int :=
  (List.range (stop - start).toNat).map fun (i : Nat) => start + i

/-- What stands between the ends of a range. -/
def ellipses : Text := ['.', '.', '.']

/-- Each meta option has to have a colon, and something behind the first one. -/
def checkMeta (metaOption : Text) : Except Fault Unit :=
  match findText [':'] metaOption with
  | none =>
    .error (.exit "Every meta-option must have colon to separate option from values.".toList)
  | some idx =>
    -- The colon must not be the last character.
    if idx + 1 = metaOption.length then .error (.exit "Meta-option cannot end with colon.".toList)
    else .ok ()

/-- Check all meta options before any of them is parsed. -/
def parseCommandLine (metas : List Text) : Except Fault Unit := metas.forM checkMeta

/-- What stands before the first colon, with the dashes that it lacks. -/
def dashed (opt : Text) : Text :=
  -- A single letter gets one dash, and a longer word two if it has none at all.
  let opt := if opt.length = 1 then '-' :: opt else opt
  if 1 ≤ opt.length ∧ '-' ∉ opt then '-' :: '-' :: opt else opt

/-- The option of a meta option. -/
def parseMetaOption (metaOption : Text) : Text :=
  match findText [':'] metaOption with
  | some idx => dashed (metaOption.take idx)
  -- Without a colon the search tells -1, which stands for the last character.
  | none => dashed metaOption.dropLast

/-- One value, or the integers of a range. -/
def parseMetaValue (val : Text) : Except Fault (List Text) :=
  match findText ellipses val with
  | none => .ok [val]
  | some eidx =>
    -- Both ends have to be there, and both have to be integers.
    if eidx + 3 = val.length then
      .error (.exit "Ellipses(...) cannot end metavalue list.".toList)
    else if eidx = 0 then
      .error (.exit "Ellipses(...) cannot start metavalue list.".toList)
    else
      match int (val.take eidx), int (val.drop (eidx + 3)) with
      | some before, some after => .ok ((range before (after + 1)).map str)
      | _, _ => .error (.exit "Ellipses(...) must be in between two integers.".toList)

/-- The values of a meta option. -/
def parseMetaValues (metaOption : Text) : Except Fault (List Text) := do
  let vals :=
    -- Everything behind the first colon is split at the further ones.
    match findText [':'] metaOption with
    | some idx => metaOption.drop (idx + 1)
    | none => metaOption
  return (← (vals.splitOn ':').mapM parseMetaValue).flatten

/-- What stands in a list of the dictionary: a value, or a list of values that was appended. -/
inductive Entry where
  | text (v : Text)
  | list (vals : List Text)
  deriving DecidableEq

/-- A dictionary, which keeps its options in the order in which they came. -/
abbrev Dict := List (Text × List Entry)

/-- Note the values of an option; if the option is there, the whole list goes behind its values. -/
def addMeta (metaDict : Dict) (opt : Text) (vals : List Text) : Dict :=
  if (metaDict.map Prod.fst).contains opt then
    -- An option that is repeated gets its new values as one list behind the old ones.
    metaDict.map fun entry =>
      (entry.1, if entry.1 = opt then entry.2 ++ [.list vals] else entry.2)
  else metaDict ++ [(opt, vals.map .text)]

/-- Note all meta options. -/
def buildDict (metas : List Text) : Except Fault Dict :=
  metas.foldlM (fun metaDict metaOption => do
    return addMeta metaDict (parseMetaOption metaOption) (← parseMetaValues metaOption)) []

/-- A combination with one more option and value; a list cannot be added to a text. -/
def extend (s opt : Text) : Entry → Except Fault Text
  | .text v => .ok (s ++ ' ' :: opt ++ ' ' :: v)
  | .list _ => .error .typeError

/-- All combinations with one more option. -/
def nextCombos (combos : List Text) (opt : Text) (vals : List Entry) :
    Except Fault (List Text) := do
  return (← combos.mapM fun s => vals.mapM (extend s opt)).flatten

/-- Go through the options of the dictionary. -/
def expand (metaDict : Dict) (combos : List Text) : Except Fault (List Text) :=
  metaDict.foldlM (fun combos (opt, vals) => nextCombos combos opt vals) combos

/-- The commands, from the meta options and the arguments that remain. -/
def generateCommands (metas remains : List Text) : Except Fault (List Text) := do
  parseCommandLine metas
  let combos ← expand (← buildDict metas) [[]]
  return combos.map fun combo => [' '].intercalate remains ++ ' ' :: combo

end SecretTyping.Exprs
