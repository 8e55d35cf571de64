import GraphReduction.Json.Basic

namespace GraphReduction.Json

def escape (c : Char) : List Char :=
  if c = '"' then ['\\', '"']
  else if c = '\\' then ['\\', '\\']
  else if c = '\x08' then ['\\', 'b']
  else if c = '\x0c' then ['\\', 'f']
  else if c = '\n' then ['\\', 'n']
  else if c = '\r' then ['\\', 'r']
  else if c = '\t' then ['\\', 't']
  else if c.toNat < 32 then
    ['\\', 'u', '0', '0', Nat.digitChar (c.toNat / 16), Nat.digitChar (c.toNat % 16)]
  else [c]

def quote (s : String) : List Char := '"' :: s.toList.flatMap escape ++ ['"']

inductive Style where
  | compact
  | pretty (level : Nat)
  deriving DecidableEq, Repr

namespace Style

def inner : Style → Style
  | compact => compact
  | pretty level => pretty (level + 1)

def lineBreak : Style → List Char
  | compact => []
  | pretty level => '\n' :: List.replicate (2 * level) ' '

def colon : Style → List Char
  | compact => [':']
  | pretty _ => [':', ' ']

end Style

mutual

def print (style : Style) : Json → List Char
  | null => ['n', 'u', 'l', 'l']
  | bool true => ['t', 'r', 'u', 'e']
  | bool false => ['f', 'a', 'l', 's', 'e']
  | number n => n.text.toList
  | string s => quote s
  | unpaired => ['"', '\\', 'u', 'd', '8', '0', '0', '"']
  | array [] => ['[', ']']
  | array (j :: js) =>
    '[' :: style.inner.lineBreak ++ print style.inner j ++ printRest style.inner js ++
      style.lineBreak ++ [']']
  | object [] => ['\x7b', '\x7d']
  | object (m :: ms) =>
    '\x7b' :: style.inner.lineBreak ++ printMember style.inner m ++ printMembers style.inner ms ++
      style.lineBreak ++ ['\x7d']

def printRest (style : Style) : List Json → List Char
  | [] => []
  | j :: js => ',' :: style.lineBreak ++ print style j ++ printRest style js

def printMember (style : Style) : String × Json → List Char
  | (key, j) => quote key ++ style.colon ++ print style j

def printMembers (style : Style) : List (String × Json) → List Char
  | [] => []
  | m :: ms => ',' :: style.lineBreak ++ printMember style m ++ printMembers style ms

end

def compact (j : Json) : String := String.ofList (j.print .compact)

def pretty (j : Json) : String := String.ofList (j.print (.pretty 0))

end GraphReduction.Json
