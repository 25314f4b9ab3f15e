import MariadbShell.Lib.Separated
import MariadbShell.Sql.SqlString

/-!
# Secrets in the SQL log

A value that is not to be logged is bound to a placeholder between two comments, and the log
has asterisks for all that stands between them. Quoting leaves comments in the value as they
are, so a value with the second comment ends the masked part itself.
-/

namespace MariadbShell.Sql

open List
open ImportTable (Bytes ascii)
open Lib.Search Lib.Separated Chr

/-! ## Masking -/

def maskBegin : Bytes := ascii ['/', '*', '(', '(', '*', '/']

def maskEnd : Bytes := ascii ['/', '*', ')', ')', '*', '/']

section

variable {subvar : Bytes → Bytes} {varBegin varEnd before marked text : Bytes}

end

/-! ## Quoted values -/

section

variable {noBackslash : Bool} {text : Bytes}

end

/-! ## What is behind an early end -/

section

variable {needle before rest front behind : Bytes}

end

/-! ## Statements -/

/-- A template in which the comments stand around the only placeholder, and nowhere else. -/
structure MaskedTemplate where
  before : Bytes
  left : Bytes
  right : Bytes
  behind : Bytes
  beginFree : Free maskBegin before
  leftFree : ¬ maskEnd <:+: left
  rightFree : Free maskEnd right
  behindFree : ¬ maskBegin <:+: behind
  placeholder : SqlString.nextEscapePosition
    (before ++ (maskBegin ++ (left ++ questionMark :: (right ++ (maskEnd ++ behind))))) =
      .ok (before ++ (maskBegin ++ left)).length
  single : SqlString.nextEscapePosition (right ++ (maskEnd ++ behind)) =
    .ok (right ++ (maskEnd ++ behind)).length

namespace MaskedTemplate

variable (template : MaskedTemplate)

def text : Bytes :=
  template.before ++ (maskBegin ++ (template.left ++ questionMark ::
    (template.right ++ (maskEnd ++ template.behind))))

/-- What is between the comments when a value is bound. -/
def marked (format : SqlStringFormat) (secret : Bytes) : Bytes :=
  template.left ++ (quote ::
    (escapeSqlString quote false format.noBackslashEscapes secret ++ quote :: template.right))

def password : MaskedTemplate where
  before := [space]
  left := [space]
  right := [space]
  behind := []
  beginFree := by decide
  leftFree := by decide
  rightFree := by decide
  behindFree := by decide
  placeholder := by decide +kernel
  single := by decide +kernel

end MaskedTemplate

end MariadbShell.Sql
