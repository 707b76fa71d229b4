import Swiftlet.Bytes.Quoted

/-!
# Flags

Flags stand before the arguments. A flag is written with one or two dashes; its value is the next
word or follows an equals sign. A flag that is only on or off may be given a value after an equals
sign. Two dashes alone end the flags.
-/

namespace Swiftlet

namespace Flags

/-- A flag by its names, the main one first. -/
structure Flag where
  names : List Bytes
  /-- Whether it takes a value; otherwise it is on or off. -/
  takesValue : Bool
  deriving DecidableEq, Repr

/-- A flag that is on or off. -/
def switch (name : String) : Flag := ⟨[utf8 name], false⟩

/-- A flag with a value, and its other names. -/
def option (name : String) (aliases : List String) : Flag := ⟨utf8 name :: aliases.map utf8, true⟩

inductive Error where
  | badForm (word : Bytes)
  | unknown (name : Bytes)
  | noValue (name : Bytes)
  | notABool (value name : Bytes)
  deriving DecidableEq, Repr

def Error.message : Error → Bytes
  | .badForm word => utf8 "bad flag syntax: " ++ word
  | .unknown name => utf8 "flag provided but not defined: -" ++ name
  | .noValue name => utf8 "flag needs an argument: -" ++ name
  | .notABool value name =>
    utf8 "invalid boolean value " ++ Quoted.quote value ++ utf8 " for -" ++ name ++
      utf8 ": parse error"

/-- Flags that were given, by their main names, latest first, and the arguments after them. -/
structure Parsed where
  switches : List (Bytes × Bool)
  values : List (Bytes × Bytes)
  args : List Bytes
  deriving DecidableEq, Repr

namespace Parsed

/-- Whether a flag is on. -/
def isOn (p : Parsed) (name : String) : Bool := (p.switches.lookup (utf8 name)).getD false

/-- The value of a flag; nothing if it was not given. -/
def value (p : Parsed) (name : String) : Bytes := (p.values.lookup (utf8 name)).getD []

/-- With a flag that was given before all others. -/
def withValue (p : Parsed) (name value : Bytes) : Parsed :=
  { p with values := p.values ++ [(name, value)] }

def withSwitch (p : Parsed) (name : Bytes) (on : Bool) : Parsed :=
  { p with switches := p.switches ++ [(name, on)] }

end Parsed

/-- A word that is on or off. -/
def bool? (word : Bytes) : Option Bool :=
  if word ∈ ["1", "t", "T", "TRUE", "true", "True"].map utf8 then some true
  else if word ∈ ["0", "f", "F", "FALSE", "false", "False"].map utf8 then some false
  else none

/-- The name of a flag in a word and the value after its equals sign. -/
def split (word : Bytes) : Bytes × Option Bytes :=
  match word.dropWhile (· ≠ 61) with
  | [] => (word, none)
  | _ :: value => (word.takeWhile (· ≠ 61), some value)

/-- A word without its dashes, if it is a flag. -/
def undash : Bytes → Option Bytes
  | 45 :: 45 :: rest => some rest
  | 45 :: b :: rest => some (b :: rest)
  | _ => none

/-- The flags at the start of a command line. -/
def parse (flags : List Flag) : List Bytes → Except Error Parsed
  | [] => .ok ⟨[], [], []⟩
  | word :: rest =>
    match undash word with
    | none => .ok ⟨[], [], word :: rest⟩
    | some [] => .ok ⟨[], [], rest⟩
    | some (b :: body) =>
      if b = 45 ∨ b = 61 then .error (.badForm word)
      else
        let (name, value) := split (b :: body)
        match flags.find? (name ∈ ·.names) with
        | none => .error (.unknown name)
        | some flag =>
          let main := flag.names.headD name
          if flag.takesValue then
            match value with
            | some v => (parse flags rest).map (·.withValue main v)
            | none =>
              match rest with
              | [] => .error (.noValue name)
              | v :: rest => (parse flags rest).map (·.withValue main v)
          else
            match value.elim (some true) bool? with
            | none => .error (.notABool (value.getD []) name)
            | some on => (parse flags rest).map (·.withSwitch main on)

end Flags

end Swiftlet
