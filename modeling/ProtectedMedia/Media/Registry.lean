import ProtectedMedia.Bytes.Hex

/-!
# Blob urls and their registry

A media source is known to scripts by a url that holds a random UUID. The registry says which
source a url stands for. An entry may outlive what it leads to, and it may lead nowhere from the
start: whether a source is still there is not the registry's business.
-/

namespace ProtectedMedia

namespace BlobUrl

/-- The version and variant bits that a random UUID has at fixed places. -/
def stamp (random : Block) : Block :=
  let version := (random.get 6 &&& 0x0f) ||| 0x40
  let variant := (random.get 8 &&& 0x3f) ||| 0x80
  (random.set 6 version).set 8 variant

def uuid (b : Bytes) : String :=
  String.intercalate "-"
    [Hex.encode (b.slice 0 4), Hex.encode (b.slice 4 6), Hex.encode (b.slice 6 8),
      Hex.encode (b.slice 8 10), Hex.encode (b.slice 10 16)]

def ofRandom (random : Block) : String := "blob:" ++ uuid (stamp random).toBytes

end BlobUrl

/-- The sources that urls stand for; `none` is a handle that leads nowhere. -/
structure Registry where
  entries : List (String × Option Nat)
  distinct : entries.Pairwise fun a b => a.1 ≠ b.1

namespace Registry

inductive Violation where
  | registeredTwice (url : String)
  | notRegistered (url : String)
  deriving DecidableEq

def Violation.message : Violation → String
  | .registeredTwice url => "MediaSource " ++ url ++ " registered twice"
  | .notRegistered url => "MediaSource " ++ url ++ " is not registered"

def empty : Registry := ⟨[], List.Pairwise.nil⟩

def find? (r : Registry) (url : String) : Option (Option Nat) :=
  (r.entries.find? fun e => e.1 = url).map (·.2)

def contains (r : Registry) (url : String) : Bool := (r.find? url).isSome

def size (r : Registry) : Nat := r.entries.length

def erase (r : Registry) (url : String) : Registry :=
  ⟨r.entries.filter fun e => e.1 ≠ url, r.distinct.filter _⟩

/-- Makes a url stand for a source, whatever it stood for before. -/
def insert (r : Registry) (url : String) (source : Option Nat) : Registry :=
  ⟨(url, source) :: (r.erase url).entries, by
    refine List.Pairwise.cons ?_ (r.erase url).distinct
    intro e he
    have := (List.mem_filter.mp he).2
    simp only [ne_eq, decide_not, Bool.not_eq_true', decide_eq_false_iff_not] at this
    exact fun h => this h.symm⟩

/-- Registers a url. A url that is registered already is a violation, which is noticed only after
the new entry has taken the place of the old one. -/
def register (r : Registry) (url : String) (source : Option Nat) : Except Violation Unit × Registry :=
  (if r.contains url then .error (.registeredTwice url) else .ok (), r.insert url source)

def unregister (r : Registry) (url : String) : Except Violation Unit × Registry :=
  (if r.contains url then .ok () else .error (.notRegistered url), r.erase url)

end Registry

end ProtectedMedia
