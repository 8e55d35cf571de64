import GraphReduction.Text.Hidden

namespace GraphReduction.Text

def codePoint (c : Char) : String :=
  "\\u\x7b" ++ String.ofList (Nat.toDigits 16 c.toNat) ++ "\x7d"

def quoteChar (c : Char) : String :=
  let inner :=
    if c = '\x00' then "\\0"
    else if c = '\t' then "\\t"
    else if c = '\n' then "\\n"
    else if c = '\r' then "\\r"
    else if c = '\'' then "\\'"
    else if c = '\\' then "\\\\"
    else if isHidden c then codePoint c
    else String.singleton c
  "'" ++ inner ++ "'"

end GraphReduction.Text
