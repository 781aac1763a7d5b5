import BlendGraph.Host.Basic
import BlendGraph.Namespace

/-!
# The channel registry

The channel requests of one compilation. The registry starts from the names of the host and puts
down each new one as taken. A taken name is used again, any other one is put down for creation;
flags are set on either. The host is only changed when the registry is applied.
-/

set_option autoImplicit false

namespace BlendGraph

variable {α : Type}

/-- How a channel is requested. -/
structure ChannelOptions (α : Type) where
  /-- Whether a taken name stands for the existing channel; otherwise it is an error. -/
  reuse : Bool
  hidden : Bool
  default : α
  synced : Bool
  deriving DecidableEq

/-- A plain request: existing channels are used, new ones are zero and not transmitted. -/
def ChannelOptions.plain (α : Type) [Scalar α] : ChannelOptions α := ⟨true, false, 0, false⟩

/-- The requests made so far. -/
structure Registry (α : Type) where
  /-- The names that no new channel can have. -/
  taken : NameSet
  /-- The channels to be created, in the order of the requests. -/
  created : List (Channel α)
  /-- The names of the host that a request has used again. -/
  reused : NameSet
  /-- The flags to be set in the host. -/
  flags : Table Bool

namespace Registry

def empty : Registry α := ⟨.empty, [], .empty, .empty⟩

def ofHost [Scalar α] (h : Host α) : Registry α :=
  { empty with taken := .ofNames h.channelNames }

def creates (r : Registry α) (name : String) : Bool := r.created.any fun c => c.name == name

def contains (r : Registry α) (name : String) : Bool := r.taken.contains name

def isRequested (r : Registry α) (name : String) : Bool :=
  r.reused.contains name || r.creates name

def finalName (name : String) (options : ChannelOptions α) : String :=
  if options.hidden then Text.hide name else name

/-- Requests a channel. The answer is its final name; the registry is the one that the request
leaves, also where it fails. -/
def register (r : Registry α) (name : String) (kind : ChannelKind) (options : ChannelOptions α) :
    Except (CompileError α) String × Registry α :=
  let name := finalName name options
  if r.contains name then
    if !options.reuse then (.error (.duplicateChannel name), r)
    else if r.creates name then (.ok name, r)
    else (.ok name, { r with reused := r.reused.insert name () })
  else
    (.ok name, { r with
      taken := r.taken.insert name ()
      created := r.created ++ [⟨name, kind, options.default, options.synced⟩] })

/-- A request in a computation that ends where one fails. -/
def request (r : Registry α) (name : String) (kind : ChannelKind) (options : ChannelOptions α) :
    Except (CompileError α) (String × Registry α) :=
  match r.register name kind options with
  | (.ok found, next) => .ok (found, next)
  | (.error e, _) => .error e

def setSynced (r : Registry α) (name : String) (synced : Bool) : Registry α :=
  if r.creates name then { r with created := Host.setSyncedIn name synced r.created }
  else { r with flags := r.flags.insert name synced }

/-- Sets one flag in the host. If that changes the flag of a channel that is not generated, the
old one is recorded. -/
def applyFlag [Scalar α] (ns : Namespace) (h : Host α) (flag : String × Bool) : Host α :=
  match h.channel? flag.1 with
  | none => h
  | some c =>
    if c.synced = flag.2 then h
    else
      let h := if ns.generates flag.1 then h else h.recordOverride ns.root flag.1 c.synced
      h.setSynced flag.1 flag.2

def apply [Scalar α] (r : Registry α) (ns : Namespace) (h : Host α) : Host α :=
  r.created.foldl Host.addChannel (r.flags.entries.foldl (applyFlag ns) h)

end Registry

end BlendGraph
