import Zygiskd.Bytes

/-!
# Zygiskd.Utils — the property, SELinux and socket helpers of `utils.rs`

Each helper is a computation over the state its OS calls change (the thread's socket-creation
context and the datagrams sent, `OsState`; the file system, `FsState`), with the outcome of each
call an input (`OsEnv`, `FsEnv`). `getProperty_spec`: `get_property` fails exactly on a name
holding a NUL; otherwise it returns UTF-8, which is the property's value exactly when that value
is UTF-8.
-/

namespace Zygiskd

/-! ## `str::trim` -/

/-- `char::is_whitespace`: the Unicode `White_Space` property. -/
def isWhitespace (c : Char) : Bool :=
  let n := c.toNat
  (0x09 ≤ n && n ≤ 0x0D) || n == 0x20 || n == 0x85 || n == 0xA0 || n == 0x1680 ||
    (0x2000 ≤ n && n ≤ 0x200A) || n == 0x2028 || n == 0x2029 || n == 0x202F || n == 0x205F ||
    n == 0x3000

def trim (s : String) : String :=
  ⟨((s.toList.dropWhile isWhitespace).reverse.dropWhile isWhitespace).reverse⟩

/-! ## `get_property` -/

/-- What `__system_property_get` writes into the buffer of `PROP_VALUE_MAX` (92) bytes: the
value, empty when unset; the property service keeps a value and its NUL within 92 bytes. -/
structure PropValue where
  bytes : List UInt8
  lt : bytes.length < 92

/-- `get_property` (lines 89-98), where `systemPropertyGet name` is what `__system_property_get`
writes for `name`; `none` is the `Err` of `CString::new`. -/
def getProperty (systemPropertyGet : List UInt8 → PropValue) (name : List UInt8) :
    Option (List UInt8) := do
  let name ← cstringNew name
  let value := systemPropertyGet name
  let buf := value.bytes ++ List.replicate (92 - value.bytes.length) 0
  let len := value.bytes.length
  if 0 < len then some (fromUtf8Lossy (buf.take len)) else some []

/-- The slice `buf[..len]` is the value, so `get_property` is `from_utf8_lossy` of it. -/
theorem getProperty_eq (get : List UInt8 → PropValue) (name : List UInt8) :
    getProperty get name = (cstringNew name).map fun name => fromUtf8Lossy (get name).bytes := by
  unfold getProperty cstringNew
  split_ifs with h0
  · rfl
  rcases Nat.eq_zero_or_pos (get name).bytes.length with hlen | hlen
  · simp [List.eq_nil_of_length_eq_zero hlen, fromUtf8Lossy, lossyGo]
  · simp [hlen, List.take_left' rfl]

/-- **A property read back.** `get_property` returns `Err` exactly when the name holds a NUL.
Otherwise it returns UTF-8 text: the property's value when the value is UTF-8, and the value
with its ill-formed parts replaced by U+FFFD when it is not. -/
theorem getProperty_spec (get : List UInt8 → PropValue) (name : List UInt8) :
    match getProperty get name with
    | none => 0 ∈ name
    | some v => 0 ∉ name ∧ utf8Valid v = true ∧
        (v = (get name).bytes ↔ utf8Valid (get name).bytes = true) := by
  rw [getProperty_eq]
  unfold cstringNew
  split_ifs with h0
  · exact h0
  · exact ⟨h0, fromUtf8Lossy_spec _⟩

/-! ## The calling thread and its sockets -/

/-- `SocketAddrUnix::new`: the path must fit the 108 bytes of `sun_path`, which need not keep room
for a NUL, and must hold no NUL of its own. -/
def socketAddrUnixNew (path : List UInt8) : Bool := (0 : UInt8) ∉ path ∧ path.length ≤ 108

/-- `writeSockcreate` is the second `fs::write` of `set_socket_create_context`. -/
inductive OsCall
  | readAttr
  | writeSockcreate
  | socketAddr
  | socket
  | connect
  | sendto
  deriving DecidableEq, Repr

/-- The thread's socket-creation context, and the datagrams sent so far, each with its
destination, its bytes and the context of the socket it left from. -/
structure OsState where
  sockcreate : String
  sent : List (List UInt8 × List UInt8 × String)

/-- The outcome of each OS call; `fs::write` depends on the text written (the kernel refuses a
context it does not know). -/
structure OsEnv where
  write : String → String → Bool
  tid : ℕ
  current : Option String
  socket : Bool
  connect : Bool
  sendto : Bool

abbrev Os := ExceptT OsCall (StateM OsState)

section Calls

variable (env : OsEnv)

def setSocketCreateContext (context : String) : Os Unit := do
  if env.write "/proc/thread-self/attr/sockcreate" context then
    modify fun st => { st with sockcreate := context }
  else
    let fallbackPath := "/proc/self/task/" ++ toString env.tid ++ "/attr/sockcreate"
    unless env.write fallbackPath context do throw .writeSockcreate
    modify fun st => { st with sockcreate := context }

def getCurrentAttr : Os String :=
  match env.current with
  | some s => pure (trim s)
  | none => throw .readAttr

/-- `socket(AF_UNIX, SOCK_DGRAM)`, whose socket gets the thread's socket-creation context. -/
def socket : Os String := do
  unless env.socket do throw .socket
  return (← get).sockcreate

def connect : Os Unit := unless env.connect do throw .connect

def sendto (sockContext : String) (path buf : List UInt8) : Os Unit := do
  unless env.sendto do throw .sendto
  modify fun st => { st with sent := st.sent ++ [(path, buf, sockContext)] }

def unixDatagramSendto (path buf : List UInt8) : Os Unit := do
  setSocketCreateContext env (← getCurrentAttr env)
  unless socketAddrUnixNew path do throw .socketAddr
  let sock ← socket env
  connect env
  sendto env sock path buf
  setSocketCreateContext env "u:r:zygote:s0"

end Calls

/-! ## `unix_listener_from_path` and the file system -/

inductive NodeKind
  | socket
  | regular
  | directory
  deriving DecidableEq, Repr

structure Node where
  kind : NodeKind
  context : String
  deriving DecidableEq, Repr

structure FsState where
  files : List UInt8 → Option Node

def FsState.put (st : FsState) (path : List UInt8) (n : Option Node) : FsState :=
  ⟨fun q => if q = path then n else st.files q⟩

inductive FsCall
  | removeFile
  | socketAddr
  | socket
  | bind
  | listen
  | chcon
  deriving DecidableEq, Repr

/-- The outcome of each call, and the context the kernel gives the socket file `bind` creates. -/
structure FsEnv where
  unlink : Bool
  socket : Bool
  bind : Bool
  socketContext : String
  listen : Bool
  chconSpawn : Bool
  chconExit : Bool

abbrev Fs := ExceptT FsCall (StateM FsState)

structure StreamSocket where
  bound : Option (List UInt8)
  backlog : Option ℕ
  deriving DecidableEq, Repr

section Calls

variable (env : FsEnv)

/-- `fs::remove_file`: `unlink` refuses a directory, and fails with `ENOENT` on a free path. -/
def Fs.removeFile (path : List UInt8) : Fs Unit := do
  match (← get).files path with
  | some n =>
    unless n.kind ≠ .directory ∧ env.unlink do throw .removeFile
    modify (·.put path none)
  | none => throw .removeFile

def Fs.socket : Fs StreamSocket := do
  unless env.socket do throw .socket
  return ⟨none, none⟩

/-- `bind`: creates the socket file at `path`, which must be free (`EADDRINUSE` otherwise). -/
def Fs.bind (s : StreamSocket) (path : List UInt8) : Fs StreamSocket := do
  unless ((← get).files path).isNone ∧ env.bind do throw .bind
  modify (·.put path (some ⟨.socket, env.socketContext⟩))
  return { s with bound := some path }

def Fs.listen (s : StreamSocket) (backlog : ℕ) : Fs StreamSocket := do
  unless env.listen do throw .listen
  return { s with backlog := some backlog }

/-- `chcon`: only a command that cannot be started is an `Err`; the exit status is dropped. -/
def chcon (path : List UInt8) (context : String) : Fs Unit := do
  unless env.chconSpawn do throw .chcon
  if env.chconExit then
    modify fun st => st.put path ((st.files path).map fun n => { n with context })

def unixListenerFromPath (path : List UInt8) : Fs StreamSocket := do
  tryCatch (Fs.removeFile env path) fun _ => pure ()
  unless socketAddrUnixNew path do throw .socketAddr
  let socket ← Fs.socket env
  let socket ← Fs.bind env socket path
  let socket ← Fs.listen env socket 10
  chcon env path "u:object_r:zygisk_file:s0"
  return socket

end Calls

/-! ## `is_socket_alive` -/

def pollIn : BitVec 16 := 1

/-- `is_socket_alive`, from what `poll` returned and the `revents` it set. -/
def isSocketAlive (ret : ℤ) (revents : BitVec 16) : Bool :=
  if ret < 0 then false else revents &&& ~~~pollIn == 0

end Zygiskd
