import Zensight.Text.Base64
import Zensight.Yaml
import Zensight.Yaml.Number
import Zensight.Yaml.Timestamp

/-!
# Values of scalars

What a scalar stands for. The text of a plain scalar decides that, unless a tag
does; a tag that does not agree with the text is a mistake. A tag that is not one
of the common ones leaves the text as it is.
-/

namespace Zensight.Yaml

/-- What a scalar stands for. -/
inductive Value where
  | null
  | boolean (b : Bool)
  | number (n : Number)
  | time
  | text (t : Text)
  deriving DecidableEq, Repr

def nullTag : Text := txt "!!null"

def booleanTag : Text := txt "!!bool"

def integerTag : Text := txt "!!int"

def realTag : Text := txt "!!float"

def timeTag : Text := txt "!!timestamp"

def binaryTag : Text := txt "!!binary"

/-- The tags whose scalars are understood by their text. -/
def commonTags : List Text := [textTag, booleanTag, integerTag, realTag, nullTag, timeTag]

/-- The tag of a value. -/
def Value.tag : Value → Text
  | null => nullTag
  | boolean _ => booleanTag
  | number (.integer _) => integerTag
  | number (.rounded _) => realTag
  | time => timeTag
  | text _ => textTag

/-- The words that stand for something else than a text. -/
def words : List (Text × Value) :=
  let are (v : Value) (names : List String) : List (Text × Value) := names.map fun s => (txt s, v)
  let real (r : Rounded) : Value := .number (.rounded r)
  are .null ["", "~", "null", "Null", "NULL"]
    ++ are (.boolean true) ["true", "True", "TRUE"]
    ++ are (.boolean false) ["false", "False", "FALSE"]
    ++ are (real .notNumber) [".nan", ".NaN", ".NAN"]
    ++ are (real (.infinite false)) [".inf", ".Inf", ".INF", "+.inf", "+.Inf", "+.INF"]
    ++ are (real (.infinite true)) ["-.inf", "-.Inf", "-.INF"]

/-- What a text stands for. Where times do not count, a date is a text. -/
def Value.ofText (times : Bool) (s : Text) : Value :=
  match words.find? (·.1 == s) with
  | some (_, v) => v
  | none =>
    if times && Timestamp.isTimestamp s then .time
    else match number? s with
      | some n => .number n
      | none => .text s

/-- What a scalar with a tag stands for. An integer will do for a number that is
not one. -/
def Value.ofScalar? (tag text : Text) : Option Value :=
  if tag = [] then some (.ofText true text)
  else if tag = binaryTag then (Text.ofBase64? text).map .text
  else if tag = textTag || !commonTags.contains tag then some (.text text)
  else
    let v := Value.ofText (tag = timeTag) text
    match v with
    | .number (.integer i) =>
      if tag = realTag && fits i then (Rounded.ofInteger? i).map fun r => .number (.rounded r)
      else if tag = integerTag then some v
      else none
    | _ => if v.tag = tag then some v else none

/-- The scalar as a text: the text as it is written, except for bytes that are
written by letters. There is none for the scalar that stands for nothing. -/
def Value.asText (written : Text) : Value → Option Text
  | null => none
  | text t => some t
  | _ => some written

end Zensight.Yaml
