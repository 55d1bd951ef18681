/-! The quoted form of strings in JSON texts. -/
namespace CallLineage.Json

def fourDigits (n : Nat) : String :=
  let digits := Nat.toDigits 16 n
  String.ofList (List.replicate (4 - digits.length) '0' ++ digits)

/-- A character inside quotes: quotes, backslashes and control characters are escaped. -/
def escapeChar (c : Char) : String :=
  if c == '"' then "\\\""
  else if c == '\\' then "\\\\"
  else if c == '\x08' then "\\b"
  else if c == '\t' then "\\t"
  else if c == '\n' then "\\n"
  else if c == '\x0c' then "\\f"
  else if c == '\r' then "\\r"
  else if c.toNat < 0x20 then "\\u" ++ fourDigits c.toNat
  else c.toString

def quote (s : String) : String := "\"" ++ String.join (s.toList.map escapeChar) ++ "\""

end CallLineage.Json
