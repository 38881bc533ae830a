-- SUMMARY: json_reader.cpp: Reader, from the characters of a document to its value.
import NetworkEtc.Json.Writer
import NetworkEtc.Library.Decimal

/-!
# The reader

A location is what is left of the document there. Behind the document is a zero. Comments are skipped
and not collected, and nothing is read for recovery after an error, which could not find others.
-/

namespace Json

open Library Library.Printf Library.Decimal

variable {δ : Type}

structure Features where
  allowComments : Bool
  strictRoot : Bool
  allowDroppedNullPlaceholders : Bool
  allowNumericKeys : Bool

def Features.all : Features := ⟨true, false, false, false⟩

def Features.strictMode : Features := ⟨false, true, false, false⟩

inductive TokenType where
  | endOfStream
  | objectBegin
  | objectEnd
  | arrayBegin
  | arrayEnd
  | string
  | number
  | true
  | false
  | null
  | arraySeparator
  | memberSeparator
  | comment
  | error
deriving DecidableEq

/-- `start_` and `end_` -/
structure Token where
  type : TokenType
  start : List UInt8
  stop : List UInt8

def Token.text (token : Token) : List UInt8 :=
  token.start.take (token.start.length - token.stop.length)

structure ErrorInfo where
  token : Token
  message : List UInt8
  extra : Option (List UInt8)

inductive Failure where
  /-- `Exceeded stackLimit in readValue().` -/
  | stackLimit
  /-- `Type is not convertible to string` -/
  | notConvertible
  /-- `parse` returns `false`. -/
  | errors (errors : List ErrorInfo)
  | outOfFuel

def addError (message : List UInt8) (token : Token) (extra : Option (List UInt8)) : Failure :=
  .errors [⟨token, message, extra⟩]

-- ---------------------------------------------------------------------------
-- Tokens
-- ---------------------------------------------------------------------------

def getNextChar : List UInt8 → UInt8 × List UInt8
  | [] => (0, [])
  | c :: current => (c, current)

def isSpace (c : UInt8) : Bool :=
  c = ascii ' ' || c = ascii '\t' || c = ascii '\r' || c = ascii '\n'

def skipSpaces (current : List UInt8) : List UInt8 := current.dropWhile isSpace

/-- `match` -/
def matchPattern (pattern current : List UInt8) : Bool × List UInt8 :=
  if pattern.isPrefixOf current then (true, current.drop pattern.length) else (false, current)

def readCStyleComment : List UInt8 → Bool × List UInt8
  | [] => (false, [])
  | c :: current =>
    if c = ascii '*' ∧ current.headD 0 = ascii '/' then (true, current.tail)
    else readCStyleComment current

def readCppStyleComment : List UInt8 → List UInt8
  | [] => []
  | c :: current =>
    if c = ascii '\n' then current
    else if c = ascii '\r' then
      if current.headD 0 = ascii '\n' then current.tail else current
    else readCppStyleComment current

def readComment (current : List UInt8) : Bool × List UInt8 :=
  let (c, current) := getNextChar current
  if c = ascii '*' then readCStyleComment current
  else if c = ascii '/' then (true, readCppStyleComment current)
  else (false, current)

/-- `readNumber`, from behind the first character. -/
def readNumber (current : List UInt8) : List UInt8 :=
  let current := current.dropWhile isDigit
  let current :=
    if current.headD 0 = ascii '.' then current.tail.dropWhile isDigit else current
  if current.headD 0 = ascii 'e' ∨ current.headD 0 = ascii 'E' then
    let current := current.tail
    let current :=
      if current.headD 0 = ascii '+' ∨ current.headD 0 = ascii '-' then current.tail else current
    current.dropWhile isDigit
  else current

def readString : List UInt8 → Bool × List UInt8
  | [] => (false, [])
  | [c] => (c = ascii '"', [])
  | c :: c' :: current =>
    if c = ascii '\\' then readString current
    else if c = ascii '"' then (true, c' :: current)
    else readString (c' :: current)

/-- `if (!ok) token.type_ = tokenError` -/
def orError (type : TokenType) : Bool × List UInt8 → TokenType × List UInt8
  | (true, current) => (type, current)
  | (false, current) => (.error, current)

/-- The `switch` of `readToken`. -/
def readTokenAt (c : UInt8) (current : List UInt8) : TokenType × List UInt8 :=
  if c = ascii '{' then (.objectBegin, current)
  else if c = ascii '}' then (.objectEnd, current)
  else if c = ascii '[' then (.arrayBegin, current)
  else if c = ascii ']' then (.arrayEnd, current)
  else if c = ascii '"' then orError .string (readString current)
  else if c = ascii '/' then orError .comment (readComment current)
  else if isDigit c ∨ c = ascii '-' then (.number, readNumber current)
  else if c = ascii 't' then orError .true (matchPattern (chars "rue") current)
  else if c = ascii 'f' then orError .false (matchPattern (chars "alse") current)
  else if c = ascii 'n' then orError .null (matchPattern (chars "ull") current)
  else if c = ascii ',' then (.arraySeparator, current)
  else if c = ascii ':' then (.memberSeparator, current)
  else if c = 0 then (.endOfStream, current)
  else (.error, current)

def readToken (current : List UInt8) : Token :=
  let start := skipSpaces current
  let (c, current) := getNextChar start
  let (type, stop) := readTokenAt c current
  ⟨type, start, stop⟩

def skipComments : Nat → List UInt8 → Token
  | 0, current => readToken current
  | n + 1, current =>
    let token := readToken current
    if token.type = .comment then skipComments n token.stop else token

/-- Tokens are read until one is no comment. A comment is a character at least. -/
def readTokenPastComments (current : List UInt8) : Token := skipComments current.length current

def skipCommentTokens (features : Features) (current : List UInt8) : Token :=
  if features.allowComments then readTokenPastComments current else readToken current

-- ---------------------------------------------------------------------------
-- Numbers
-- ---------------------------------------------------------------------------

def decodeDouble (reals : Reals δ) (token : Token) : Except Failure (Value δ) :=
  match reals.read token.text with
  | none => .error (addError (chars "'" ++ token.text ++ chars "' is not a number.") token none)
  | some value => .ok (.real value)

/-- The loop of `decodeNumber`. There is no result when the token is to be a `double`. -/
def decodeDigits (maxIntegerValue : UInt64) : List UInt8 → UInt64 → Option UInt64
  | [], value => some value
  | c :: current, value =>
    if c < ascii '0' ∨ ascii '9' < c then none
    else
      let digit := (c - ascii '0').toUInt64
      if maxIntegerValue / 10 ≤ value ∧
          (maxIntegerValue / 10 < value ∨ current ≠ [] ∨ maxIntegerValue % 10 < digit) then none
      else decodeDigits maxIntegerValue current (value * 10 + digit)

/-- `Value::maxInt` -/
def maxInt : UInt64 := 0x7FFFFFFF

/-- `decodeNumber`, when the number is an integer that is small enough. -/
def decodeInteger (text : List UInt8) : Option (Value δ) :=
  let isNegative := text.headD 0 = ascii '-'
  let maxIntegerValue : UInt64 := if isNegative then 0x8000000000000000 else 0xFFFFFFFFFFFFFFFF
  (decodeDigits maxIntegerValue (if isNegative then text.tail else text) 0).map fun value =>
    if isNegative then .int (-value.toInt64)
    else if value ≤ maxInt then .int value.toInt64
    else .uint value

def decodeNumber (reals : Reals δ) (token : Token) : Except Failure (Value δ) :=
  match decodeInteger token.text with
  | some value => .ok value
  | none => decodeDouble reals token

-- ---------------------------------------------------------------------------
-- Strings
-- ---------------------------------------------------------------------------

/-- `codePointToUTF8`, from json_tool.h. -/
def codePointToUTF8 (cp : UInt32) : List UInt8 :=
  if cp ≤ 0x7f then [cp.toUInt8]
  else if cp ≤ 0x7FF then
    [(cp >>> 6 &&& 0x1f ||| 0xC0).toUInt8, (cp &&& 0x3f ||| 0x80).toUInt8]
  else if cp ≤ 0xFFFF then
    [(cp >>> 12 &&& 0xf).toUInt8 ||| 0xE0, (cp >>> 6 &&& 0x3f).toUInt8 ||| 0x80,
      (cp &&& 0x3f ||| 0x80).toUInt8]
  else if cp ≤ 0x10FFFF then
    [(cp >>> 18 &&& 0x7 ||| 0xF0).toUInt8, (cp >>> 12 &&& 0x3f ||| 0x80).toUInt8,
      (cp >>> 6 &&& 0x3f ||| 0x80).toUInt8, (cp &&& 0x3f ||| 0x80).toUInt8]
  else []

/-- The loop of `decodeUnicodeEscapeSequence`. -/
def readHexDigits (token : Token) : Nat → UInt32 → List UInt8 →
    Except Failure (UInt32 × List UInt8)
  | 0, unicode, current => .ok (unicode, current)
  | n + 1, unicode, current =>
    let (c, current) := getNextChar current
    if ascii '0' ≤ c ∧ c ≤ ascii '9' then
      readHexDigits token n (unicode * 16 + (c - ascii '0').toUInt32) current
    else if ascii 'a' ≤ c ∧ c ≤ ascii 'f' then
      readHexDigits token n (unicode * 16 + (c - ascii 'a' + 10).toUInt32) current
    else if ascii 'A' ≤ c ∧ c ≤ ascii 'F' then
      readHexDigits token n (unicode * 16 + (c - ascii 'A' + 10).toUInt32) current
    else .error (addError
      (chars "Bad unicode escape sequence in string: hexadecimal digit expected.") token current)

def decodeUnicodeEscapeSequence (token : Token) (current : List UInt8) :
    Except Failure (UInt32 × List UInt8) :=
  if current.length < 4 then
    .error (addError (chars "Bad unicode escape sequence in string: four digits expected.") token
      current)
  else readHexDigits token 4 0 current

/-- `decodeUnicodeCodePoint`, when `unicode` is the first half of a surrogate pair. -/
def decodeSurrogatePair (token : Token) (unicode : UInt32) (current : List UInt8) :
    Except Failure (UInt32 × List UInt8) :=
  if current.length < 6 then
    .error (addError
      (chars "additional six characters expected to parse unicode surrogate pair.") token current)
  else
    let expected := chars
      "expecting another \\u token to begin the second half of a unicode surrogate pair"
    let (c, current) := getNextChar current
    if c = ascii '\\' then
      let (c, current) := getNextChar current
      if c = ascii 'u' then
        match decodeUnicodeEscapeSequence token current with
        | .error e => .error e
        | .ok (surrogatePair, current) =>
          .ok ((0x10000 : UInt32) + ((unicode &&& 0x3FF) <<< 10) + (surrogatePair &&& 0x3FF),
            current)
      else .error (addError expected token current)
    else .error (addError expected token current)

def decodeUnicodeCodePoint (token : Token) (current : List UInt8) :
    Except Failure (UInt32 × List UInt8) :=
  match decodeUnicodeEscapeSequence token current with
  | .error e => .error e
  | .ok (unicode, current) =>
    if 0xD800 ≤ unicode ∧ unicode ≤ 0xDBFF then decodeSurrogatePair token unicode current
    else .ok (unicode, current)

/-- What a backslash stands for together with what is behind it. -/
def decodeEscape (token : Token) : List UInt8 → Except Failure (List UInt8 × List UInt8)
  | [] => .error (addError (chars "Empty escape sequence in string") token (some []))
  | escape :: current =>
    if escape = ascii '"' then .ok ([ascii '"'], current)
    else if escape = ascii '/' then .ok ([ascii '/'], current)
    else if escape = ascii '\\' then .ok ([ascii '\\'], current)
    else if escape = ascii 'b' then .ok ([8], current)
    else if escape = ascii 'f' then .ok ([12], current)
    else if escape = ascii 'n' then .ok ([ascii '\n'], current)
    else if escape = ascii 'r' then .ok ([ascii '\r'], current)
    else if escape = ascii 't' then .ok ([ascii '\t'], current)
    else if escape = ascii 'u' then
      match decodeUnicodeCodePoint token current with
      | .error e => .error e
      | .ok (unicode, current) => .ok (codePointToUTF8 unicode, current)
    else .error (addError (chars "Bad escape sequence in string") token current)

/-- The loop of `decodeString`, up to the quote at the end. -/
def decodeChars (token : Token) : Nat → List UInt8 → Except Failure (List UInt8)
  | 0, _ => .error .outOfFuel
  | _ + 1, [] => .ok []
  | n + 1, c :: current =>
    if c = ascii '"' then .ok []
    else if c = ascii '\\' then
      match decodeEscape token current with
      | .error e => .error e
      | .ok (decoded, current) => (decodeChars token n current).map (decoded ++ ·)
    else (decodeChars token n current).map (c :: ·)

def decodeString (token : Token) : Except Failure (List UInt8) :=
  decodeChars token token.text.length token.text.tail.dropLast

-- ---------------------------------------------------------------------------
-- Values
-- ---------------------------------------------------------------------------

/-- `Value::asString` -/
def asString (reals : Reals δ) : Value δ → Except Failure (List UInt8)
  | .null => .ok []
  | .string value => .ok value
  | .boolean value => .ok (if value then chars "true" else chars "false")
  | .int value => .ok (valueToStringLargestInt value)
  | .uint value => .ok (valueToStringLargestUInt value)
  | .real value => .ok (valueToStringDouble reals value)
  | .array _ | .object _ => .error .notConvertible

section

variable (read : List UInt8 → Except Failure (Value δ × List UInt8))

/-- The loop of `readArray`. -/
def readElements : Nat → List (Value δ) → List UInt8 → Except Failure (Value δ × List UInt8)
  | 0, _, _ => .error .outOfFuel
  | n + 1, elements, current =>
    match read current with
    | .error e => .error e
    | .ok (value, current) =>
      let token := readTokenPastComments current
      if token.type ≠ .arraySeparator ∧ token.type ≠ .arrayEnd then
        .error (addError (chars "Missing ',' or ']' in array declaration") token none)
      else if token.type = .arrayEnd then .ok (.array (elements ++ [value]), token.stop)
      else readElements n (elements ++ [value]) token.stop

def readArray (tokenStart : Token) : Except Failure (Value δ × List UInt8) :=
  let current := skipSpaces tokenStart.stop
  if current.headD 0 = ascii ']' then .ok (.array [], (readToken current).stop)
  else readElements read (current.length + 1) [] current

variable (features : Features) (reals : Reals δ)

def memberName (tokenName : Token) : Except Failure (List UInt8) :=
  if tokenName.type = .string then decodeString tokenName
  else if tokenName.type = .number ∧ features.allowNumericKeys = true then
    match decodeNumber reals tokenName with
    | .error e => .error e
    | .ok numberName => asString reals numberName
  else .error (addError (chars "Missing '\x7d' or object member name") tokenName none)

/-- The loop of `readObject`. -/
def readMembers : Nat → List UInt8 → List (List UInt8 × Value δ) → List UInt8 →
    Except Failure (Value δ × List UInt8)
  | 0, _, _, _ => .error .outOfFuel
  | n + 1, name, members, current =>
    let tokenName := readTokenPastComments current
    if tokenName.type = .objectEnd ∧ name = [] then .ok (.object members, tokenName.stop)
    else
      match memberName features reals tokenName with
      | .error e => .error e
      | .ok name =>
        let colon := readToken tokenName.stop
        if colon.type ≠ .memberSeparator then
          .error (addError (chars "Missing ':' after object member name") colon none)
        else
          match read colon.stop with
          | .error e => .error e
          | .ok (value, current) =>
            let members := OrderedMap.set name value members
            let comma := readToken current
            if comma.type ≠ .objectEnd ∧ comma.type ≠ .arraySeparator ∧ comma.type ≠ .comment then
              .error (addError (chars "Missing ',' or '\x7d' in object declaration") comma none)
            else
              -- what comes behind a comment need not be a comma
              let comma := if comma.type = .comment then readTokenPastComments comma.stop else comma
              if comma.type = .objectEnd then .ok (.object members, comma.stop)
              else readMembers n name members comma.stop

def readObject (tokenStart : Token) : Except Failure (Value δ × List UInt8) :=
  readMembers read features reals (tokenStart.stop.length + 1) [] [] tokenStart.stop

end

/-- `readValue`, when it may be called `room` deep. -/
def readValue (features : Features) (reals : Reals δ) :
    Nat → List UInt8 → Except Failure (Value δ × List UInt8)
  | 0, _ => .error .stackLimit
  | room + 1, current =>
    let token := skipCommentTokens features current
    let failed := addError (chars "Syntax error: value, object or array expected.") token none
    match token.type with
    | .objectBegin => readObject (readValue features reals room) features reals token
    | .arrayBegin => readArray (readValue features reals room) token
    | .number => (decodeNumber reals token).map fun value => (value, token.stop)
    | .string => (decodeString token).map fun value => (.string value, token.stop)
    | .true => .ok (.boolean true, token.stop)
    | .false => .ok (.boolean false, token.stop)
    | .null => .ok (.null, token.stop)
    | .arraySeparator | .objectEnd | .arrayEnd =>
      if features.allowDroppedNullPlaceholders then .ok (.null, token.start) else .error failed
    | _ => .error failed

/-- `stackLimit_g` -/
def stackLimit : Nat := 1000

/-- `parse`, into a value that is `root` before. -/
def parse (features : Features) (reals : Reals δ) (root : Value δ) (document : List UInt8) :
    Except Failure (Value δ) :=
  let container : ErrorInfo := ⟨⟨.error, document, []⟩,
    chars "A valid JSON document must be either an array or an object value.", none⟩
  match readValue features reals stackLimit document with
  | .error (.errors errors) =>
    -- the root is an array or an object as soon as it has begun
    let first := (skipCommentTokens features document).type
    if features.strictRoot ∧ first ≠ .arrayBegin ∧ first ≠ .objectBegin ∧
        root.isArray = false ∧ root.isObject = false then .error (.errors (errors ++ [container]))
    else .error (.errors errors)
  | .error e => .error e
  | .ok (value, _) =>
    if features.strictRoot ∧ value.isArray = false ∧ value.isObject = false then
      .error (.errors [container])
    else .ok value

end Json
