import ParamSchema.Dump.Search
import ParamSchema.Extract.Root

/-!
# Failures and exit statuses

A `Failure` is a chain of links: what was being done when something went wrong, and what went wrong
inside that, down to the cause.  Its text is that of its links; its status is that of the first
link that has one:

* `4`   an input that is no document, or no JSON;
* `6`   an input that a schema rejects;
* `5`   a file or folder that cannot be used;
* `2`   a pattern that is none;
* `1`   everything else.

An error of the library may stand in a chain as it is or gathered in `Error`.
-/

namespace ParamSchema

inductive Link where
  /-- what was being done, or a cause that has no status of its own -/
  | note (text : String)
  | gathered (error : Error)
  | parse (error : ParseError)
  | validation (error : ValidationError)
  | json (fault : JsonFault)
  | file (error : FileError)
  | search (error : SearchError)
  | pattern (error : GlobError)
deriving DecidableEq

namespace Link

def text : Link → String
  | .note t => t
  | .gathered e => e.message
  | .parse e => e.text
  | .validation e => e.message
  | .json f => f.message
  | .file e => e.message
  | .search e => e.message
  | .pattern e => e.message

def status? : Link → Option Nat
  | .gathered (.parse _) => some 4
  | .gathered (.json _) => some 4
  | .gathered (.validation _) => some 6
  | .gathered _ => none
  | .parse _ => some 4
  | .json _ => some 4
  | .validation _ => some 6
  | .file _ => some 5
  | .search _ => some 5
  | .pattern _ => some 2
  | .note _ => none

end Link

structure Failure where
  links : List Link
deriving DecidableEq

namespace Failure

def of (l : Link) : Failure := ⟨[l]⟩

/-- A JSON fault has a text of its own inside that of the gathered error. -/
def ofError (e : Error) : Failure :=
  match e with
  | .json f => ⟨[.gathered e, .json f]⟩
  | e => of (.gathered e)

/-- the same failure while doing something -/
def during (f : Failure) (context : String) : Failure := ⟨.note context :: f.links⟩

def text (f : Failure) : String := ": ".intercalate (f.links.map Link.text)

def status (f : Failure) : Nat := (f.links.findSome? Link.status?).getD 1

theorem status_during (f : Failure) (context : String) : (f.during context).status = f.status := rfl

end Failure
end ParamSchema
