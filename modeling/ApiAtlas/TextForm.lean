import ApiAtlas.Decimal.Numeral
import ApiAtlas.Text.Split
import ApiAtlas.Json.Printer

/-!
# Types with a text form

Network addresses, calendar types and identifiers are read from a text. A form says what its
runtime type is called, what a reader expects, which text stands for it in documentation, and
why another text is refused.
-/
namespace ApiAtlas

open Decimal (isDigit valueOf)

/-- The types that are read from a text. -/
inductive TextForm where
  | uuid
  | ipAddr
  | ipv4Addr
  | ipv6Addr
  | socketAddr
  | socketAddrV4
  | socketAddrV6
  | dateTimeUtc
  | dateTimeFixed
  | naiveDate
  | naiveDateTime
  | naiveTime
  deriving DecidableEq, Repr

namespace TextForm

def all : List TextForm :=
  [ipAddr, ipv4Addr, ipv6Addr, socketAddr, socketAddrV4, socketAddrV6, dateTimeUtc,
    dateTimeFixed, naiveDate, naiveDateTime, naiveTime, uuid]

def typeName : TextForm → String
  | uuid => "uuid::Uuid"
  | ipAddr => "core::net::ip_addr::IpAddr"
  | ipv4Addr => "core::net::ip_addr::Ipv4Addr"
  | ipv6Addr => "core::net::ip_addr::Ipv6Addr"
  | socketAddr => "core::net::socket_addr::SocketAddr"
  | socketAddrV4 => "core::net::socket_addr::SocketAddrV4"
  | socketAddrV6 => "core::net::socket_addr::SocketAddrV6"
  | dateTimeUtc => "chrono::datetime::DateTime<chrono::offset::utc::Utc>"
  | dateTimeFixed => "chrono::datetime::DateTime<chrono::offset::fixed::FixedOffset>"
  | naiveDate => "chrono::naive::date::NaiveDate"
  | naiveDateTime => "chrono::naive::datetime::NaiveDateTime"
  | naiveTime => "chrono::naive::time::NaiveTime"

def expecting : TextForm → String
  | uuid => "a formatted UUID string"
  | ipAddr => "IP address"
  | ipv4Addr => "IPv4 address"
  | ipv6Addr => "IPv6 address"
  | socketAddr => "socket address"
  | socketAddrV4 => "IPv4 socket address"
  | socketAddrV6 => "IPv6 socket address"
  | dateTimeUtc => "an RFC 3339 formatted date and time string"
  | dateTimeFixed => "an RFC 3339 formatted date and time string"
  | naiveDate => "a formatted date string"
  | naiveDateTime => "a formatted date and time string"
  | naiveTime => "a formatted time string"

def placeholder : TextForm → String
  | uuid => "00000000-0000-0000-0000-000000000000"
  | ipAddr => "0.0.0.0"
  | ipv4Addr => "0.0.0.0"
  | ipv6Addr => "::"
  | socketAddr => "0.0.0.0:0"
  | socketAddrV4 => "0.0.0.0:0"
  | socketAddrV6 => "[::]:0"
  | dateTimeUtc => "1970-01-01T00:00:00Z"
  | dateTimeFixed => "1970-01-01T00:00:00+00:00"
  | naiveDate => "1970-01-01"
  | naiveDateTime => "1970-01-01T00:00:00"
  | naiveTime => "00:00:00"

/-- Whether the characters are digits, from `least` to `most` of them, and a number below the
bound. -/
def isNumber (least most bound : Nat) (cs : List Char) : Bool :=
  cs.all isDigit && least ≤ cs.length && cs.length ≤ most && valueOf cs < bound

/-- Four numbers below 256 without leading zeros, joined by points. -/
def isIpv4 (cs : List Char) : Bool :=
  let parts := Text.parts '.' cs
  parts.length = 4 && parts.all fun part =>
    isNumber 1 3 256 part && (part.length = 1 || part.head? ≠ some '0')

def isHex (c : Char) : Bool := isDigit c || 'a' ≤ c && c ≤ 'f' || 'A' ≤ c && c ≤ 'F'

/-- Groups of one to four hexadecimal digits; the last may be an address of version 4 and then
counts twice. -/
def groupCount? (groups : List (List Char)) : Option Nat :=
  match groups with
  | [] => some 0
  | [last] =>
      if isIpv4 last then some 2
      else if last.all isHex && 1 ≤ last.length && last.length ≤ 4 then some 1 else none
  | group :: rest =>
      if group.all isHex && 1 ≤ group.length && group.length ≤ 4 then
        (groupCount? rest).map (· + 1)
      else none

/-- Split at the first double colon. -/
def splitDoubleColon : List Char → Option (List Char × List Char)
  | ':' :: ':' :: rest => some ([], rest)
  | c :: rest => (splitDoubleColon rest).map fun (front, back) => (c :: front, back)
  | [] => none

/-- Groups between colons; none in an empty text. -/
def groupsOf (cs : List Char) : List (List Char) := if cs.isEmpty then [] else Text.parts ':' cs

/-- Eight groups, or fewer around one double colon. -/
def isIpv6 (cs : List Char) : Bool :=
  match splitDoubleColon cs with
  | none => groupCount? (groupsOf cs) = some 8
  | some (front, back) =>
      match groupCount? (groupsOf front), groupCount? (groupsOf back) with
      | some m, some n => m + n < 8 && !front.contains '.'
      | _, _ => false

/-- Digits, however many, of a number below the bound. -/
def isBelow (bound : Nat) (cs : List Char) : Bool := isNumber 1 cs.length bound cs

/-- A number of 16 bits behind the last colon, after an address that passes the test. -/
def isSocketOf (address : List Char → Bool) (cs : List Char) : Bool :=
  match (cs.reverse.dropWhile (· ≠ ':')).reverse, (cs.reverse.takeWhile (· ≠ ':')).reverse with
  | [], _ => false
  | front, number => address front.dropLast && isBelow (Nat.pow 2 16) number

/-- An address of version 6, and the number of its zone behind a percent sign if there is one. -/
def isScoped (cs : List Char) : Bool :=
  match Text.cut? '%' cs with
  | some (address, zone) => isIpv6 address && isBelow (Nat.pow 2 32) zone
  | none => isIpv6 cs

/-- An address of version 6 in square brackets. -/
def isBracketed (cs : List Char) : Bool :=
  cs.head? = some '[' && cs.getLast? = some ']' && isScoped cs.tail.dropLast

/-- Two digits below a bound. -/
def isTwoDigits (bound : Nat) (cs : List Char) : Bool := isNumber 2 2 bound cs

def daysIn (year month : Nat) : Nat :=
  if month = 2 then
    if year % 4 = 0 && (year % 100 ≠ 0 || year % 400 = 0) then 29 else 28
  else if month = 4 || month = 6 || month = 9 || month = 11 then 30 else 31

def isDate (cs : List Char) : Bool :=
  match Text.parts '-' cs with
  | [year, month, day] =>
      isNumber 4 4 10000 year && isNumber 1 2 13 month && 1 ≤ valueOf month &&
        isNumber 1 2 32 day && 1 ≤ valueOf day && valueOf day ≤ daysIn (valueOf year) (valueOf month)
  | _ => false

def isTime (cs : List Char) : Bool :=
  match Text.parts ':' cs with
  | [hours, minutes, seconds] =>
      let whole := seconds.takeWhile (· ≠ '.')
      let fraction := seconds.dropWhile (· ≠ '.')
      isTwoDigits 24 hours && isTwoDigits 60 minutes && isTwoDigits 61 whole &&
        (fraction.isEmpty || fraction.tail.all isDigit && fraction.length ≠ 1)
  | _ => false

/-- Date and time around a `T`. -/
def isDateTime (cs : List Char) : Bool :=
  let date := cs.takeWhile (· ≠ 'T')
  isDate date && isTime (cs.drop (date.length + 1))

def isZonedDateTime (cs : List Char) : Bool :=
  match cs.reverse with
  | 'Z' :: rest => isDateTime rest.reverse
  | m :: m' :: ':' :: h :: h' :: sign :: rest =>
      (sign = '+' || sign = '-') && isTwoDigits 60 [m', m] && isTwoDigits 24 [h', h] &&
        isDateTime rest.reverse
  | _ => false

/-- Why a text names no universally unique identifier. -/
def uuidFault? (text : String) : Option String :=
  let cs := text.toList
  let (body, offset, simple) := match cs with
    | '\x7b' :: rest =>
        if rest.getLast? = some '\x7d' then (rest.dropLast, 1, false) else (cs, 0, true)
    | 'u' :: 'r' :: 'n' :: ':' :: 'u' :: 'u' :: 'i' :: 'd' :: ':' :: rest => (rest, 9, false)
    | cs => (cs, 0, true)
  let groups := Text.parts '-' body
  match body.findIdx? fun c => !isHex c && c ≠ '-' with
  | some i =>
      some ("invalid character: found \x60" ++ String.ofList [body.getD i ' '] ++ "\x60 at " ++
        Decimal.numeral ((body.take i).foldr (fun c n => c.utf8Size + n) (offset + 1)))
  | none =>
      if groups.length = 1 then
        if body.length = 32 then none
        else some ("invalid length: found " ++ Decimal.numeral (if simple then cs.length else body.length))
      else if groups.length ≠ 5 then
        some ("invalid group count: expected 5, found " ++ Decimal.numeral groups.length)
      else
        let sizes := [8, 4, 4, 4, 12]
        match ((groups.zip sizes).zipIdx).find? fun x => x.1.1.length ≠ x.1.2 with
        | none => none
        | some ((group, size), i) =>
            some ("invalid group length in group " ++ Decimal.numeral i ++ ": expected " ++
              Decimal.numeral size ++ ", found " ++ Decimal.numeral group.length)

/-- Why a text is refused, unless it is accepted. -/
def refusal? (form : TextForm) (text : String) : Option String :=
  let cs := text.toList
  let given := fun (accepted : Bool) (fault : String) => if accepted then none else some fault
  let calendar := fun (accepted : Bool) =>
    if accepted then none
    else if text.isEmpty then some "premature end of input"
    else some "input contains invalid characters"
  match form with
  | uuid => (uuidFault? text).map ("UUID parsing failed: " ++ ·)
  | ipAddr => given (isIpv4 cs || isIpv6 cs) "invalid IP address syntax"
  | ipv4Addr => given (isIpv4 cs) "invalid IPv4 address syntax"
  | ipv6Addr => given (isIpv6 cs) "invalid IPv6 address syntax"
  | socketAddr =>
      given (isSocketOf isIpv4 cs || isSocketOf isBracketed cs) "invalid socket address syntax"
  | socketAddrV4 => given (isSocketOf isIpv4 cs) "invalid IPv4 socket address syntax"
  | socketAddrV6 => given (isSocketOf isBracketed cs) "invalid IPv6 socket address syntax"
  | dateTimeUtc => calendar (isZonedDateTime cs)
  | dateTimeFixed => calendar (isZonedDateTime cs)
  | naiveDate => calendar (isDate cs)
  | naiveDateTime => calendar (isDateTime cs)
  | naiveTime => calendar (isTime cs)

end TextForm
end ApiAtlas
