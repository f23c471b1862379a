import Packrat.Grammar
import Packrat.Json.Printer

/-!
# Comma-separated values

Fields are either quoted, where a quote is written twice and commas and line breaks are plain
content, or unquoted up to the next comma or line break.  Records end with `\n` or `\r\n`; the
last line break is optional.
-/

namespace Packrat.Csv

/-- The fields of a record. -/
abbrev Record := List (List Char)

/-- Whether a record is what an empty line yields. -/
def isBlank (record : Record) : Bool := record == [[]]

/-- Drops the record that a line break at the end leaves behind. -/
def dropTrailing (records : List Record) : List Record :=
  if (records.getLast?.map isBlank).getD false then records.dropLast else records

/-- The payloads of the grammar: texts, records, and lists of records. -/
inductive Payload where
  | text (chars : List Char)
  | record (fields : Record)
  | records (rows : List Record)
  deriving Inhabited

namespace Payload

def toChars : Payload → List Char
  | .text chars => chars
  | _ => []

def toRecord : Payload → Record
  | .record fields => fields
  | _ => []

def toRecords : Payload → List Record
  | .records rows => rows
  | _ => []

/-- The texts of several payloads, one after another. -/
def concat (payloads : List Payload) : Payload := .text (payloads.flatMap toChars)

/-- Texts as the fields of a record. -/
def fields (payloads : List Payload) : Payload := .record (payloads.map toChars)

/-- Several records as a list. -/
def pack (payloads : List Payload) : Payload := .records (payloads.map toRecord)

def unpack (payload : Payload) : List Payload := payload.toRecords.map .record

end Payload

open Packrat.Parser

def charIn (accepts : Char → Bool) : Parser Payload := .satisfy accepts fun c => .text [c]

/-- A field in quotes. -/
def quotedField : Parser Payload :=
  let quote := charIn (· == '"')
  let doubled : Parser Payload := .literal ['"', '"'] (.text ['"'])
  let content := many (.firstOf [doubled, charIn (· != '"')]) .concat
  .sequence [quote, content, quote] fun payloads => payloads.getD 1 (.text [])

/-- A field without quotes, which may be empty. -/
def plainField : Parser Payload :=
  many (charIn fun c => !(c == ',' || c == '"' || c == '\r' || c == '\n')) .concat

def field : Parser Payload := .firstOf [quotedField, plainField]

/-- Fields with commas between them. -/
def record : Parser Payload :=
  let next : Parser Payload :=
    .sequence [charIn (· == ','), field] fun payloads => payloads.getD 1 (.text [])
  .sequence [field, many next .fields] fun
    | [first, rest] => .record (first.toChars :: rest.toRecord)
    | _ => .record []

def lineBreak : Parser Payload :=
  .firstOf [.literal ['\r', '\n'] (.text []), .literal ['\n'] (.text [])]

/-- The grammar of comma-separated values. -/
def grammar : Grammar Payload where
  rules := .empty
  entry := (joined 0 1 .pack Payload.unpack record lineBreak).map fun payload =>
    .records (dropTrailing payload.toRecords)

/-- Records as JSON: an array of arrays of strings. -/
def toJson (records : List Record) : Json.Value :=
  .array (records.map fun record => .array (record.map .string))

/-- A list in brackets, as reports show it. -/
def describeList (items : List String) : String := "[" ++ String.intercalate ", " items ++ "]"

/-- The text that shows records in a report. -/
def describe (records : List Record) : String :=
  describeList (records.map fun record =>
    describeList (record.map fun field => Text.quoted (String.ofList field)))

end Packrat.Csv
