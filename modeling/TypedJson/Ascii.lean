/-! The bytes that delimit a JSON document, and the byte classes its tokens are made of. -/
namespace TypedJson.Ascii

@[match_pattern] abbrev quote : UInt8 := 0x22
@[match_pattern] abbrev plus : UInt8 := 0x2b
@[match_pattern] abbrev comma : UInt8 := 0x2c
@[match_pattern] abbrev minus : UInt8 := 0x2d
@[match_pattern] abbrev point : UInt8 := 0x2e
@[match_pattern] abbrev slash : UInt8 := 0x2f
@[match_pattern] abbrev zero : UInt8 := 0x30
@[match_pattern] abbrev colon : UInt8 := 0x3a
@[match_pattern] abbrev upperE : UInt8 := 0x45
@[match_pattern] abbrev openBracket : UInt8 := 0x5b
@[match_pattern] abbrev backslash : UInt8 := 0x5c
@[match_pattern] abbrev closeBracket : UInt8 := 0x5d
@[match_pattern] abbrev lowerE : UInt8 := 0x65
@[match_pattern] abbrev lowerF : UInt8 := 0x66
@[match_pattern] abbrev lowerN : UInt8 := 0x6e
@[match_pattern] abbrev lowerT : UInt8 := 0x74
@[match_pattern] abbrev lowerU : UInt8 := 0x75
@[match_pattern] abbrev openBrace : UInt8 := 0x7b
@[match_pattern] abbrev closeBrace : UInt8 := 0x7d

/-- Space, tab, line feed and carriage return: the only bytes allowed between tokens. -/
def isWhitespace (byte : UInt8) : Bool :=
  byte == 0x20 || byte == 0x09 || byte == 0x0a || byte == 0x0d

def isDigit (byte : UInt8) : Bool := 0x30 ≤ byte && byte ≤ 0x39

def isNonzeroDigit (byte : UInt8) : Bool := 0x31 ≤ byte && byte ≤ 0x39

def isControl (byte : UInt8) : Bool := byte < 0x20

def isAscii (byte : UInt8) : Bool := byte < 0x80

/-- A byte that ends a run of literal text inside a string token. -/
def isDelimiter (byte : UInt8) : Bool := byte == quote || byte == backslash

def startsNumber (byte : UInt8) : Bool := byte == minus || isDigit byte

/-- A byte that can begin a JSON value. -/
def startsValue (byte : UInt8) : Bool :=
  byte == quote || byte == openBracket || byte == openBrace || byte == lowerT ||
    byte == lowerF || byte == lowerN || startsNumber byte

/-- The value of a decimal digit. -/
def digitValue (byte : UInt8) : Nat := byte.toNat - 0x30

end TypedJson.Ascii
