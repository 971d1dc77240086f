import SsaCompiler.Text.Escaped

/-!
Listings of data. A listing is a tree of named parts, written on one line or with every part on a
line of its own.
-/
namespace SsaCompiler

inductive Listing
  | atom (text : String)
  /-- A name applied to at least one part. -/
  | tagged (name : String) (parts : List Listing)
  /-- A name with at least one labelled part. -/
  | record (name : String) (fields : List (String × Listing))
  | list (items : List Listing)

namespace Listing

/-- A string in double quotes. -/
def string (s : String) : Listing :=
  atom ("\"" ++ String.join (s.toList.map (Text.escapeVisible '"')) ++ "\"")

/-- A character in single quotes. -/
def char (c : Char) : Listing := atom ("'" ++ Text.escapeVisible '\'' c ++ "'")

/-- A part that may be absent. -/
def option : Option Listing → Listing
  | none => atom "None"
  | some x => tagged "Some" [x]

def comma (parts : List String) : String := ", ".intercalate parts

mutual

/-- The listing on one line. -/
def compact : Listing → String
  | atom s => s
  | tagged name parts => name ++ "(" ++ comma (compactParts parts) ++ ")"
  | record name fields => name ++ " \x7b " ++ comma (compactFields fields) ++ " \x7d"
  | list items => "[" ++ comma (compactParts items) ++ "]"

def compactParts : List Listing → List String
  | [] => []
  | x :: xs => x.compact :: compactParts xs

def compactFields : List (String × Listing) → List String
  | [] => []
  | (label, x) :: xs => (label ++ ": " ++ x.compact) :: compactFields xs

end

/-- How far parts stand behind what they are parts of. -/
def indent : String := "    "

/-- Parts on lines of their own, up to where the closing bracket follows. -/
def enclosed (margin : String) (parts : List String) : String :=
  if parts.isEmpty then ""
  else "\n" ++ String.join (parts.map fun p => margin ++ indent ++ p ++ ",\n") ++ margin

mutual

/-- The listing with every part on a line of its own. Lines behind the first one start with the
margin. -/
def spread (margin : String) : Listing → String
  | atom s => s
  | tagged name parts =>
    name ++ "(" ++ enclosed margin (spreadParts (margin ++ indent) parts) ++ ")"
  | record name fields =>
    name ++ " \x7b" ++ enclosed margin (spreadFields (margin ++ indent) fields) ++ "\x7d"
  | list items => "[" ++ enclosed margin (spreadParts (margin ++ indent) items) ++ "]"

def spreadParts (margin : String) : List Listing → List String
  | [] => []
  | x :: xs => x.spread margin :: spreadParts margin xs

def spreadFields (margin : String) : List (String × Listing) → List String
  | [] => []
  | (label, x) :: xs => (label ++ ": " ++ x.spread margin) :: spreadFields margin xs

end

end Listing

end SsaCompiler
