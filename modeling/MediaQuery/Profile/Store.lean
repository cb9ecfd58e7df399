import MediaQuery.Json.Json5
import MediaQuery.Json.Writer
import MediaQuery.Profile.Edit
import MediaQuery.Profile.Verify

set_option autoImplicit false

namespace MediaQuery

namespace Path

/-- The last part of a path, slashes at its end left out. -/
def fileName (path : String) : List Char :=
  let reversed := path.toList.reverse.dropWhile (· == '/')
  (reversed.takeWhile (· != '/')).reverse

/-- What follows the last point of a file name. A point at its start begins no extension. -/
def extension? (path : String) : Option String :=
  let reversed := (fileName path).reverse
  let behind := reversed.takeWhile (· != '.')
  match reversed.drop behind.length with
  | _ :: [] => none
  | [] => none
  | _ :: _ :: _ => if fileName path = ['.', '.'] then none else some (String.ofList behind.reverse)

def join (path part : String) : String :=
  match path.toList.getLast? with
  | none => part
  | some '/' => path ++ part
  | some _ => path ++ "/" ++ part

end Path

/-- The path of a user's profile: the one that is named, or else a fixed one in the home. -/
def Profile.path (named : Option String) (home : String) : String :=
  named.getD (Path.join (Path.join home ".mquery") "profile.json")

def Profile.isJson5 (file : String) : Bool :=
  (Path.extension? file).any fun extension =>
    Text.lowerAll extension.toList == "json5".toList

def Profile.text (p : Profile) : String := Json.pretty (JsonForm.toJson p)

/-- Reads the text of a profile's file. JSON5 is read in a loose fit. -/
def Profile.ofText (file text : String) : Except ProfileError Profile :=
  let profile :=
    if Profile.isJson5 file then (Json5.read? text).bind (JsonForm.ofJson? .loose)
    else (Json.read? text).bind (JsonForm.ofJson? .tight)
  match profile with
  | some p => .ok p
  | none => .error (.malformed file)

/-- The texts of files by their paths. -/
abbrev Store := KeyMap String

namespace Store

/-- Whether some file lies below a path. -/
def isFolder (s : Store) (path : String) : Bool :=
  s.keys.any fun file => (Text.dropStart? (path.toList ++ ['/']) file.toList).isSome

def exists? (s : Store) (path : String) : Bool := (s.get? path).isSome || s.isFolder path

def load (s : Store) (file : String) : Except ProfileError Profile :=
  match s.get? file with
  | none => .error (.unreadable file)
  | some text => do
    let p ← Profile.ofText file text
    match p.environment.validate with
    | .ok () => .ok p
    | .error e => .error (.invalidDevice file e)

def loadDefault (s : Store) (file : String) : Except ProfileError Profile :=
  if s.exists? file then s.load file else .ok {}

def loadNotices (s : Store) (file : String) : List Notice :=
  match s.load file with
  | .ok _ => [.loaded file]
  | .error _ => []

def save (s : Store) (p : Profile) (file : String) : Except ProfileError Store :=
  if s.isFolder file then .error (.unwritable file) else .ok (s.insert file p.text)

/-- All that is wrong with the profile in a file. -/
def verify (s : Store) (file : String) : Except ProfileError (List String) :=
  if !s.exists? file then .error (.missing file)
  else match s.get? file with
    | none => .error (.unverifiable file)
    | some text => (Profile.ofText file text).map Profile.problems

end Store

end MediaQuery
