import ApiAtlas.Text.Quoted
import ApiAtlas.Wire
import ApiAtlas.Outline

/-!
# Methods of requests

Seven methods are known by name, in any case of ASCII letters. Every other name is a method of
its own and is kept as it was given. The sort key puts four common methods in front by a digit;
names of other methods follow as they are.
-/
namespace ApiAtlas

inductive Method where
  | get
  | post
  | put
  | delete
  | patch
  | options
  | head
  | other (name : String)
  deriving DecidableEq, Repr

namespace Method

def known : List Method := [get, post, put, delete, patch, options, head]

def name : Method → String
  | get => "GET"
  | post => "POST"
  | put => "PUT"
  | delete => "DELETE"
  | patch => "PATCH"
  | options => "OPTIONS"
  | head => "HEAD"
  | other name => name

/-- A name in upper case; only ASCII letters have one. -/
def upperName (name : String) : String := String.ofList (name.toList.map Char.toUpper)

def ofName (name : String) : Method :=
  (known.find? fun method => method.name = upperName name).getD (other name)

/-- The key by which methods are sorted. -/
def sortKey : Method → String
  | get => "1GET"
  | put => "2PUT"
  | post => "3POST"
  | delete => "4DELETE"
  | method => method.name

/-- How a method is shown in a summary. -/
def label : Method → String
  | get => "Get"
  | post => "Post"
  | put => "Put"
  | delete => "Delete"
  | patch => "Patch"
  | options => "Options"
  | head => "Head"
  | other name => "Other(" ++ Text.quoted name ++ ")"

def outline (method : Method) : Outline := .text method.name

/-- A method is read from its name. -/
def ofJson : Wire.Reader Method := fun value => (Wire.text value).map ofName

theorem ofName_name_of_mem_known {method : Method} (h : method ∈ known) :
    ofName method.name = method := by
  simp only [known, List.mem_cons, List.not_mem_nil, or_false] at h
  rcases h with rfl | rfl | rfl | rfl | rfl | rfl | rfl <;> decide +kernel

end Method
end ApiAtlas
