import Mathlib.Data.Rat.Floor

/-!
# The configuration of a middleware

A middleware gets its settings as a JSON value and reads them by their names.  A setting that is
absent, or `null`, has its default; one of another type is an error that names it.  Strings are of
a type of their own in each middleware: bytes where tokens are compared, characters where URLs are
taken apart.
-/

namespace Ephpm.Middleware

/-- A number of `serde_json`: a `u64`, a negative `i64` or a finite `f64`. -/
inductive Number where
  | pos (n : ℕ)
  | neg (n : ℤ)
  | float (value : ℚ)

/-- `serde_json::Value`. -/
inductive Json (Str : Type) where
  | null
  | bool (b : Bool)
  | number (n : Number)
  | string (s : Str)
  | array (items : List (Json Str))
  | object (fields : List (Str × Json Str))

/-- Why a configuration is refused, with the setting it is about. -/
inductive InitError (Str : Type) where
  | required (key : Str)
  | empty (key : Str)
  | notString (key : Str)
  | notBoolean (key : Str)
  | notInteger (key : Str)
  | notArray (key : Str)
  | notObject (key : Str)
  | unknownValue (key value : Str)
  /-- An entry of `host_map` that is no string, or an empty one. -/
  | badEntry (key : Str)
  /-- A status that is neither 301 nor 308. -/
  | badStatus
  /-- Neither a URL nor a path of the same origin. -/
  | badLoginUrl (url : Str)
  | relativePath (path : Str)

namespace Json

variable {Str : Type} [DecidableEq Str]

/-- `Value::get`. -/
def get (value : Json Str) (key : Str) : Option (Json Str) :=
  match value with
  | object fields => (fields.find? fun f => f.1 = key).map Prod.snd
  | _ => none

omit [DecidableEq Str] in
/-- `Value::as_str`. -/
def asStr : Json Str → Option Str
  | string s => some s
  | _ => none

omit [DecidableEq Str] in
/-- `Value::as_u64`. -/
def asU64 : Json Str → Option ℕ
  | number (.pos n) => some n
  | _ => none

/-- A setting, where `null` counts as absent. -/
def setting (config : Json Str) (key : Str) : Option (Json Str) :=
  match config.get key with
  | some null => none
  | value => value

/-- `opt_bool`. -/
def optBool (config : Json Str) (key : Str) (default : Bool) : Except (InitError Str) Bool :=
  match config.setting key with
  | none => .ok default
  | some (bool b) => .ok b
  | some _ => .error (.notBoolean key)

end Json

end Ephpm.Middleware
