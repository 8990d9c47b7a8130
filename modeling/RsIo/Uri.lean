import RsIo.Bytes
import RsIo.Decimal
import RsIo.StdString
import RsIo.Regex

/-!
# URIs

`class Uri` keeps the text of a URI and seven offsets into it, at which the parts after
the scheme begin. The parser computes the offsets from what the groups of one regular
expression matched. The other member functions replace one part of the text and move the
offsets behind it, each with its own arithmetic.

The offsets are integers here. In the class they are of type `int`, with 32 bits, so that
what is said about them holds as long as every text is shorter than `2 ^ 31` bytes.

The formatting and regex libraries that the class calls are not part of the repository.
`UriLibs` stands for them and states what the class relies on.
-/

namespace RsIo

open StdString

/-! ### Characters -/

/-- Letters and digits. -/
def isAlnum (c : UInt8) : Bool :=
  (48 ≤ c && c ≤ 57) || (65 ≤ c && c ≤ 90) || (97 ≤ c && c ≤ 122)

/-- Lower case letters. -/
def isLower (c : UInt8) : Bool := 97 ≤ c && c ≤ 122

/-- Control characters. -/
def isCntrl (c : UInt8) : Bool := c < 32 || c == 127

/-- The lower case form of a letter. -/
def toLower (c : UInt8) : UInt8 := if 65 ≤ c && c ≤ 90 then c + 32 else c

/-- The digits of `toLower` and `hex`. -/
def isHexDigit (c : UInt8) : Bool := isDigit c || (97 ≤ c && c ≤ 102) || (65 ≤ c && c ≤ 70)

/-- The character `@`. -/
def atSign : UInt8 := 64

/-- The character `?`. -/
def question : UInt8 := 63

/-- The character `#`. -/
def hash : UInt8 := 35

/-- The character `%`. -/
def percent : UInt8 := 37

/-- What the class calls of the formatting and regex libraries, and what it relies on: the
ASCII classification functions, `hex` of a byte, which gives two digits, and the first
match of a regular expression under the flag `full`. -/
structure UriLibs where
  asciiIsalnumW : UInt8 → Bool
  asciiIscntrl : UInt8 → Bool
  asciiLowercase : Bytes → Bytes
  hex : UInt8 → Bytes
  fullMatch : Regex UInt8 → Bytes → Option (Regex.Captures UInt8)
  asciiIsalnumW_eq : ∀ c, asciiIsalnumW c = (isAlnum c || c == 95)
  asciiIscntrl_eq : ∀ c, asciiIscntrl c = isCntrl c
  asciiLowercase_eq : ∀ s, asciiLowercase s = s.map toLower
  hex_length : ∀ c, (hex c).length = 2
  isHexDigit_hex : ∀ c, ∀ d ∈ hex c, isHexDigit d = true
  fullMatch_eq : ∀ r s, fullMatch r s = r.fullMatch s

theorem isHexDigit_hexDigit (n : ℕ) : isHexDigit (hexDigit n) = true := by
  have hall : ∀ d ∈ bytes "0123456789abcdef", isHexDigit d = true := by decide +kernel
  exact hall _ (hexDigit_mem n)

/-- The functions as their documentation describes them. -/
def UriLibs.ascii : UriLibs where
  asciiIsalnumW c := isAlnum c || c == 95
  asciiIscntrl := isCntrl
  asciiLowercase s := s.map toLower
  hex c := [hexDigit (c.toNat / 16), hexDigit (c.toNat % 16)]
  fullMatch := Regex.fullMatch
  asciiIsalnumW_eq _ := rfl
  asciiIscntrl_eq _ := rfl
  asciiLowercase_eq _ := rfl
  hex_length _ := rfl
  isHexDigit_hex c d hd := by
    rcases List.mem_cons.mp hd with rfl | hd
    · exact isHexDigit_hexDigit _
    · rw [List.mem_singleton.mp hd]
      exact isHexDigit_hexDigit _
  fullMatch_eq _ _ := rfl

/-- A `Uri`: the text, and the offsets into it where its parts begin. -/
@[ext]
structure Uri where
  text : Bytes := []
  ofsUser : ℤ := 0
  ofsPassword : ℤ := 0
  ofsHost : ℤ := 0
  ofsPort : ℤ := 0
  ofsPath : ℤ := 0
  ofsQuery : ℤ := 0
  ofsFragment : ℤ := 0
  deriving DecidableEq, Repr

namespace Uri

/-- How a member function ended, and the object it left behind. -/
inductive Outcome
  | returned (u : Uri)
  | threw (error : InvalidArgument) (u : Uri)
  deriving DecidableEq, Repr

/-- Two calls in sequence: the second one is not made if the first one throws. -/
def Outcome.andThen : Outcome → (Uri → Outcome) → Outcome
  | returned u, call => call u
  | threw error u, _ => threw error u

/-! ### Observers -/

/-- `Uri::empty`. -/
def empty (u : Uri) : Bool := u.text.isEmpty

/-- `Uri::has_user`. -/
def hasUser (u : Uri) : Bool := ! u.empty && u.ofsPassword > u.ofsUser

/-- `Uri::has_password`. -/
def hasPassword (u : Uri) : Bool := ! u.empty && u.ofsHost - u.ofsPassword > 1

/-- `Uri::has_host`. -/
def hasHost (u : Uri) : Bool := ! u.empty && u.ofsPort > u.ofsHost

/-- `Uri::has_port`. -/
def hasPort (u : Uri) : Bool := ! u.empty && u.ofsPath > u.ofsPort

/-- `Uri::has_path`. -/
def hasPath (u : Uri) : Bool := ! u.empty && u.ofsQuery - u.ofsPath > 1

/-- `Uri::has_query`. -/
def hasQuery (u : Uri) : Bool := ! u.empty && u.ofsFragment > u.ofsQuery

/-- `Uri::has_fragment`. -/
def hasFragment (u : Uri) : Bool := ! u.empty && u.text.length > u.ofsFragment

/-! ### Encoding and parsing -/

/-- The loop of `Uri::encode`: a run of safe characters is copied and the character behind
it is escaped. -/
def encodeLoop (lib : UriLibs) (isSafe : UInt8 → Bool) (s : Bytes) : Bytes :=
  match _h : s.dropWhile isSafe with
  | [] => s.takeWhile isSafe
  | c :: t => s.takeWhile isSafe ++ (percent :: lib.hex c) ++ encodeLoop lib isSafe t
termination_by s.length
decreasing_by
  have hle := (List.dropWhile_suffix isSafe (l := s)).length_le
  rw [_h, List.length_cons] at hle
  omega

/-- The characters that `Uri::encode` leaves alone. -/
def isSafe (lib : UriLibs) (exempt : Bytes) (c : UInt8) : Bool :=
  lib.asciiIsalnumW c || c == 45 || c == dot || c == 126 || exempt.contains c

/-- `Uri::encode`. -/
def encode (lib : UriLibs) (s : Bytes) (exempt : Bytes := []) : Bytes :=
  encodeLoop lib (isSafe lib exempt) s

/-- `[a-z0-9.+-]`. -/
def isSchemeChar (c : UInt8) : Bool :=
  isLower c || isDigit c || c == dot || c == 43 || c == 45

/-- `[^/:@]`. -/
def isHostChar (c : UInt8) : Bool := c != slash && c != colon && c != atSign

/-- `[^/@]`. -/
def isPasswordChar (c : UInt8) : Bool := c != slash && c != atSign

/-- `[^#?]`. -/
def isPathChar (c : UInt8) : Bool := c != hash && c != question

/-- `[^#]`. -/
def isQueryChar (c : UInt8) : Bool := c != hash

/-- `.`, which does not match a line feed. -/
def isAny (c : UInt8) : Bool := c != 10

section Patterns

open Regex

/-- The regular expression of `Uri::set_scheme`. -/
def schemePattern : Regex UInt8 :=
  seq (char isLower) (seq (many isSchemeChar)
    (opt (group 1 (seq (literal [colon]) (opt (group 2 (literal [slash, slash])))))))

/-- A class of the regular expression of `Uri::try_parse` under the flag `icase`. -/
def icase (p : UInt8 → Bool) (c : UInt8) : Bool := p (toLower c)

/-- The scheme in the regular expression of `Uri::try_parse`. -/
def parseScheme : Regex UInt8 :=
  group 1 (seq (char (icase isLower)) (seq (many (icase isSchemeChar))
    (seq (literal [colon]) (opt (literal [slash, slash])))))

/-- The user and password in it. -/
def parseUser : Regex UInt8 :=
  seq (group 2 (many1 isHostChar)) (group 3 (seq (many isPasswordChar) (literal [atSign])))

/-- The host and port, behind an optional user and password. -/
def parseAuthority : Regex UInt8 :=
  seq (opt parseUser) (seq (group 4 (many1 isHostChar))
    (opt (group 5 (seq (literal [colon]) (many1 isDigit)))))

/-- The path, query and fragment. -/
def parseTail : Regex UInt8 :=
  seq (opt (group 6 (seq (literal [slash]) (many isPathChar))))
    (seq (opt (group 7 (seq (literal [question]) (many isQueryChar))))
      (opt (group 8 (seq (literal [hash]) (many isAny)))))

/-- The regular expression of `Uri::try_parse`. -/
def parsePattern : Regex UInt8 := seq parseScheme (seq (opt parseAuthority) parseTail)

end Patterns

/-- `Uri::try_parse` when it returns true. -/
def parsed (s : Bytes) (m : Regex.Captures UInt8) : Uri :=
  let ofsUser : ℤ := m.count 1
  let ofsPassword := ofsUser + m.count 2
  let ofsHost := ofsPassword + m.count 3
  let ofsPort := ofsHost + m.count 4
  let ofsPath := ofsPort + m.count 5
  let ofsQuery := ofsPath + m.count 6
  let ofsFragment := ofsQuery + m.count 7
  ⟨s, ofsUser, ofsPassword, ofsHost, ofsPort, ofsPath, ofsQuery, ofsFragment⟩

/-- `Uri::try_parse`: whether it succeeded, and the object afterwards. -/
def tryParse (lib : UriLibs) (u : Uri) (s : Bytes) : Bool × Uri :=
  if s.any lib.asciiIscntrl then (false, u)
  else match lib.fullMatch parsePattern s with
    | none => (false, u)
    | some m => (true, parsed s m)

/-- The constructor from a string. -/
def ofString (lib : UriLibs) (s : Bytes) : Except InvalidArgument Uri :=
  let (ok, u) := tryParse lib {} s
  if ok then .ok u else .error ⟨"Invalid URI: ", some s⟩

/-! ### Clearing parts -/

/-- `text_.replace` at offsets of the class. -/
def replaceText (u : Uri) (pos len : ℤ) (t : Bytes) : Bytes :=
  replace u.text pos.toNat len.toNat t

/-- `text_.erase` at offsets of the class. -/
def eraseText (u : Uri) (pos len : ℤ) : Bytes := erase u.text pos.toNat len.toNat

/-- `text_.resize` to an offset of the class. -/
def resizeText (u : Uri) (n : ℤ) : Bytes := resize 0 u.text n.toNat

/-- `Uri::clear_user`. -/
def clearUser (u : Uri) : Uri :=
  if ! u.hasUser then u
  else
    let delta := u.ofsHost - u.ofsUser
    { u with
      text := u.eraseText u.ofsUser delta
      ofsPassword := u.ofsUser
      ofsHost := u.ofsUser
      ofsPort := u.ofsPort - delta
      ofsPath := u.ofsPath - delta
      ofsQuery := u.ofsQuery - delta
      ofsFragment := u.ofsFragment - delta }

/-- `Uri::clear_password`. -/
def clearPassword (u : Uri) : Uri :=
  if ! u.hasPassword then u
  else
    let delta := u.ofsHost - u.ofsPassword - 1
    { u with
      text := u.replaceText u.ofsPassword (u.ofsHost - u.ofsPassword) [atSign]
      ofsHost := u.ofsHost - delta
      ofsPort := u.ofsPort - delta
      ofsPath := u.ofsPath - delta
      ofsQuery := u.ofsQuery - delta
      ofsFragment := u.ofsFragment - delta }

/-- `Uri::clear_host`. -/
def clearHost (u : Uri) : Uri :=
  if ! u.hasHost then u
  else
    let delta := u.ofsPort - u.ofsHost
    { u with
      text := u.eraseText u.ofsHost delta
      ofsPort := u.ofsPort - delta
      ofsPath := u.ofsPath - delta
      ofsQuery := u.ofsQuery - delta
      ofsFragment := u.ofsFragment - delta }

/-- `Uri::clear_port`. -/
def clearPort (u : Uri) : Uri :=
  if ! u.hasPort then u
  else
    let delta := u.ofsPath - u.ofsPort
    { u with
      text := u.eraseText u.ofsPort delta
      ofsPath := u.ofsPath - delta
      ofsQuery := u.ofsQuery - delta
      ofsFragment := u.ofsFragment - delta }

/-- `Uri::clear_path`. -/
def clearPath (u : Uri) : Uri :=
  if ! u.hasPath then u
  else
    let delta := u.ofsQuery - u.ofsPath
    { u with
      text := u.eraseText u.ofsPath delta
      ofsQuery := u.ofsQuery - delta
      ofsFragment := u.ofsFragment - delta }

/-- `Uri::clear_query`. -/
def clearQuery (u : Uri) : Uri :=
  if ! u.hasQuery then u
  else
    { u with
      text := u.eraseText u.ofsQuery (u.ofsFragment - u.ofsQuery)
      ofsFragment := u.ofsQuery }

/-- `Uri::clear_fragment`. -/
def clearFragment (u : Uri) : Uri :=
  if u.hasFragment then { u with text := u.resizeText u.ofsFragment } else u

/-- `Uri::clear`. -/
def clear (_ : Uri) : Uri := {}

/-! ### Setting parts -/

/-- The `throw` of `Uri::check_nonempty`. -/
def emptyError : InvalidArgument :=
  ⟨"Individual URI elements can't be set on an empty URI", none⟩

/-- The text that `Uri::set_scheme` puts in place of the scheme, if it accepts the new one.
A missing colon is added, and if `smart` is set the two slashes too. -/
def schemeText (lib : UriLibs) (newScheme : Bytes) (smart : Bool) : Option Bytes :=
  let schemeText := lib.asciiLowercase newScheme
  (lib.fullMatch schemePattern schemeText).map fun m =>
    let schemeText := if m.matched 1 then schemeText else schemeText ++ [colon]
    if smart && ! m.matched 2 && schemeText != bytes "mailto:" then
      schemeText ++ [slash, slash]
    else schemeText

/-- `Uri::set_scheme`. -/
def setScheme (lib : UriLibs) (u : Uri) (newScheme : Bytes) (smart : Bool := true) : Outcome :=
  match schemeText lib newScheme smart with
  | none => .threw ⟨"Invalid URI scheme: ", some newScheme⟩ u
  | some schemeText =>
      let delta := (schemeText.length : ℤ) - u.ofsUser
      .returned
        { text := u.replaceText 0 u.ofsUser schemeText
          ofsUser := u.ofsUser + delta
          ofsPassword := u.ofsPassword + delta
          ofsHost := u.ofsHost + delta
          ofsPort := u.ofsPort + delta
          ofsPath := u.ofsPath + delta
          ofsQuery := u.ofsQuery + delta
          ofsFragment := u.ofsFragment + delta }

/-- `Uri::set_user`. -/
def setUser (lib : UriLibs) (u : Uri) (newUser : Bytes) : Outcome :=
  if u.empty then .threw emptyError u
  else if newUser.isEmpty then .returned u.clearUser
  else if ! u.hasHost then .threw ⟨"Can't set user on URI with no host", none⟩ u
  else
    let userText := encode lib newUser
    let delta := (userText.length : ℤ) - (u.ofsPassword - u.ofsUser)
    if u.hasUser then
      .returned
        { u with
          text := u.replaceText u.ofsUser (u.ofsPassword - u.ofsUser) userText
          ofsPassword := u.ofsPassword + delta
          ofsHost := u.ofsHost + delta
          ofsPort := u.ofsPort + delta
          ofsPath := u.ofsPath + delta
          ofsQuery := u.ofsQuery + delta
          ofsFragment := u.ofsFragment + delta }
    else
      let text := u.replaceText u.ofsUser (u.ofsPassword - u.ofsUser) (userText ++ [atSign])
      let delta := delta + 1
      let ofsHost := u.ofsHost + delta
      .returned
        { u with
          text := text
          ofsHost := ofsHost
          ofsPassword := ofsHost - 1
          ofsPort := u.ofsPort + delta
          ofsPath := u.ofsPath + delta
          ofsQuery := u.ofsQuery + delta
          ofsFragment := u.ofsFragment + delta }

/-- `Uri::set_password`. -/
def setPassword (lib : UriLibs) (u : Uri) (newPassword : Bytes) : Outcome :=
  if u.empty then .threw emptyError u
  else if newPassword.isEmpty then .returned u.clearPassword
  else if ! u.hasUser then .threw ⟨"Can't set password on URI with no user", none⟩ u
  else
    let passwordText := colon :: encode lib newPassword ++ [atSign]
    let delta := (passwordText.length : ℤ) - (u.ofsHost - u.ofsPassword)
    .returned
      { u with
        text := u.replaceText u.ofsPassword (u.ofsHost - u.ofsPassword) passwordText
        ofsHost := u.ofsHost + delta
        ofsPort := u.ofsPort + delta
        ofsPath := u.ofsPath + delta
        ofsQuery := u.ofsQuery + delta
        ofsFragment := u.ofsFragment + delta }

/-- `Uri::set_host`. -/
def setHost (lib : UriLibs) (u : Uri) (newHost : Bytes) : Outcome :=
  if u.empty then .threw emptyError u
  else if newHost.isEmpty then .returned u.clearHost
  else
    let hostText := encode lib newHost
    let delta := (hostText.length : ℤ) - (u.ofsPort - u.ofsHost)
    .returned
      { u with
        text := u.replaceText u.ofsHost (u.ofsPort - u.ofsHost) hostText
        ofsPort := u.ofsPort + delta
        ofsPath := u.ofsPath + delta
        ofsQuery := u.ofsQuery + delta
        ofsFragment := u.ofsFragment + delta }

/-- `Uri::set_port`. -/
def setPort (u : Uri) (newPort : UInt16) : Outcome :=
  if u.empty then .threw emptyError u
  else if newPort == 0 then .returned u.clearPort
  else if ! u.hasHost then .threw ⟨"Can't set port on URI with no host", none⟩ u
  else
    let portText := colon :: toDecimal newPort.toNat
    let delta := (portText.length : ℤ) - (u.ofsPath - u.ofsPort)
    .returned
      { u with
        text := u.replaceText u.ofsPort (u.ofsPath - u.ofsPort) portText
        ofsPath := u.ofsPath + delta
        ofsQuery := u.ofsQuery + delta
        ofsFragment := u.ofsFragment + delta }

/-- `new_path.find("//") != npos`. -/
def hasDoubleSlash (newPath : Bytes) : Bool := (find [slash, slash] newPath 0).isSome

/-- The text that `Uri::set_path` puts in place of the path. -/
def pathText (lib : UriLibs) (newPath : Bytes) : Bytes :=
  let pathText := encode lib newPath [colon, slash]
  if ! pathText.isEmpty && pathText.head? != some slash then slash :: pathText else pathText

/-- `Uri::set_path`. -/
def setPath (lib : UriLibs) (u : Uri) (newPath : Bytes) : Outcome :=
  if u.empty then .threw emptyError u
  else if newPath.isEmpty then .returned u.clearPath
  else if hasDoubleSlash newPath then .threw ⟨"Invalid URI path: ", some newPath⟩ u
  else
    let pathText := pathText lib newPath
    let delta := (pathText.length : ℤ) - (u.ofsQuery - u.ofsPath)
    .returned
      { u with
        text := u.replaceText u.ofsPath (u.ofsQuery - u.ofsPath) pathText
        ofsQuery := u.ofsQuery + delta
        ofsFragment := u.ofsFragment + delta }

/-- `Uri::set_query`. -/
def setQuery (u : Uri) (newQuery : Bytes) : Outcome :=
  if u.empty then .threw emptyError u
  else if newQuery.isEmpty then .returned u.clearQuery
  else
    let delta := ((newQuery.length + 1 : ℕ) : ℤ) - (u.ofsFragment - u.ofsQuery)
    .returned
      { u with
        text := u.replaceText u.ofsQuery (u.ofsFragment - u.ofsQuery) (question :: newQuery)
        ofsFragment := u.ofsFragment + delta }

/-- `Uri::set_fragment`. The replaced part reaches to the end of the text. -/
def setFragment (lib : UriLibs) (u : Uri) (newFragment : Bytes) : Outcome :=
  if u.empty then .threw emptyError u
  else if newFragment.isEmpty then .returned u.clearFragment
  else
    .returned
      { u with
        text := u.replaceText u.ofsFragment (u.text.length - u.ofsFragment)
          (hash :: encode lib newFragment) }

/-- `Uri::append_path`. -/
def appendPath (lib : UriLibs) (u : Uri) (newPath : Bytes) : Outcome :=
  if newPath.isEmpty then .returned u
  else if u.empty then .threw emptyError u
  else if newPath.head? == some slash || ! u.hasPath then setPath lib u newPath
  else if hasDoubleSlash newPath then .threw ⟨"Invalid URI path: ", some newPath⟩ u
  else
    let pathText := encode lib newPath [colon, slash]
    let pathText :=
      if u.text[(u.ofsQuery - 1).toNat]? != some slash then slash :: pathText else pathText
    let delta : ℤ := pathText.length
    .returned
      { u with
        text := insert u.text u.ofsQuery.toNat pathText
        ofsQuery := u.ofsQuery + delta
        ofsFragment := u.ofsFragment + delta }

/-- The constructor from the parts. A constructor that throws leaves no object. -/
def ofParts (lib : UriLibs) (scheme user password host : Bytes) (port : UInt16)
    (path query fragment : Bytes) : Except InvalidArgument Uri :=
  let outcome := (setScheme lib {} scheme)
    |>.andThen (setHost lib · host)
    |>.andThen (setUser lib · user)
    |>.andThen (setPassword lib · password)
    |>.andThen (setPort · port)
    |>.andThen (setPath lib · path)
    |>.andThen (setQuery · query)
    |>.andThen (setFragment lib · fragment)
  match outcome with
  | .returned u => .ok u
  | .threw error _ => .error error

/-! ### Related URIs -/

/-- `Uri::doc`. -/
def doc (u : Uri) : Uri := { u with text := u.resizeText u.ofsFragment }

/-- `Uri::base`. -/
def base (u : Uri) : Uri :=
  { u with text := u.resizeText u.ofsQuery, ofsFragment := u.ofsQuery }

/-- The loop of `Uri::parent`: the last slash at or before `p`, but not before `ofsPath`. -/
def lastSlash (text : Bytes) (ofsPath p : ℤ) : ℤ :=
  if p > ofsPath ∧ text[p.toNat]? ≠ some slash then lastSlash text ofsPath (p - 1) else p
termination_by (p - ofsPath).toNat

/-- `Uri::parent`. -/
def parent (u : Uri) : Uri :=
  let u := u.base
  if u.ofsQuery - u.ofsPath > 1 then
    let p := u.ofsQuery - 1
    let p := if u.text[p.toNat]? = some slash then p - 1 else p
    let p := lastSlash u.text u.ofsPath p
    let p := if u.text[p.toNat]? = some slash then p + 1 else p
    { u with text := u.resizeText p, ofsQuery := p, ofsFragment := p }
  else u

/-- `Uri::root`. -/
def root (u : Uri) : Uri :=
  let text := u.resizeText u.ofsPath
  let ofsPath := (text.length : ℤ)
  let text := if u.ofsQuery > u.ofsPath then text ++ [slash] else text
  { u with
    text := text
    ofsPath := ofsPath
    ofsQuery := text.length
    ofsFragment := text.length }

end Uri

end RsIo
