import RemoteDocker.Client.Shares

/-!
# File handles

`src/core-client/nfsserve/handles.go`. The handle of a share's root is a digest of its export and
the handle the cache has for it, and is told from every other by its length. It is looked for in the
cache, then among the shares, then in the record.

The cache is go-nfs's: it gives out sixteen bytes it never gave before, or again those of the same
filesystem and the same joined path, and it may forget any of them at any time. A process that
restarts has an empty cache and an empty registry, and reads whatever record there is.
-/

namespace RemoteDocker.NfsServe

open Base Workspace Client

abbrev Handle := List UInt8

def exportKeySize : Nat := 8

def cachedHandleSize : Nat := 16

def rootHandleSize : Nat := exportKeySize + cachedHandleSize

def exportKey (h : Host) (exportPath : Text) : Handle :=
  (h.sha256 exportPath).toList.take exportKeySize

def exportRootOf (f : Fs) : Text := if f.isRoot then f.exportPath else []

/-- `shareForKey`, over `Shares` in their order. -/
def Registry.shareForKey (h : Host) (r : Registry) (key : Handle) : Option Share :=
  if key.length ≠ exportKeySize then none
  else
    ((r.shares.entries.map (·.2)).insertionSort
      fun a b ↦ a.exportPath ≤ b.exportPath).find? fun share ↦
      exportKey h share.exportPath = key

/-- Only the first export that matches is tried. -/
def restoreMatching (h : Host) (files : Files) (now : Int) (s : Session) (accepts : Text → Bool) :
    Session × Option Share :=
  match s.store.exports.find? accepts with
  | none => (s, none)
  | some x =>
    let (s', found) := s.lookupOrRestore h files now x
    (s', found.bind fun (share, rest) ↦ if rest = ['/'] then some share else none)

/-- The cache of handles, and what was ever given out. -/
structure Handles where
  session : Session
  cache : AList fun _ : Handle ↦ Fs × List Text := ∅
  /-- Every handle a cache made, in this process or one before. -/
  used : List Handle := []
  /-- The handles given for the root of a share, with its export. -/
  roots : List (Handle × Text) := []
  /-- The handles given for paths below a root and for mounts of a subdirectory. -/
  others : List Handle := []

/-- `rootHandler.ToHandle`, with the handle the cache gave. -/
def toHandle (h : Host) (f : Fs) (path : List Text) (cached : Handle) : Handle :=
  if path ≠ [] ∨ exportRootOf f = [] ∨ cached.length ≠ cachedHandleSize then cached
  else exportKey h (exportRootOf f) ++ cached

namespace Handles

def fromHandle (h : Host) (files : Files) (now : Int) (s : Handles) (handle : Handle) :
    Handles × Option (Fs × List Text) :=
  if handle.length ≠ rootHandleSize then (s, s.cache.lookup handle)
  else
    let key := handle.take exportKeySize
    let cached := handle.drop exportKeySize
    match s.cache.lookup cached with
    | some found => (s, some found)
    | none =>
      match s.session.registry.shareForKey h key with
      | some share => (s, some (share.fs, []))
      | none =>
        let (session, share) := restoreMatching h files now s.session fun x ↦ exportKey h x = key
        ({ s with session }, share.map fun share ↦ (share.fs, []))

/-- A process that starts: what it is configured with, and the record it finds. -/
structure Boot where
  attrs : Attrs
  watch : FsWatch.Watch
  prefetch : Prefetch
  files : Files
  now : Int
  this : Bound
  file : Option ShareFile

def Boot.session (h : Host) (b : Boot) : Session where
  registry := { attrs := b.attrs }
  store := ShareStore.load h b.files b.now b.this b.file
  watch := b.watch
  prefetch := b.prefetch

def start (h : Host) (b : Boot) : Handles := { session := b.session h }

inductive Event where
  | register (files : Files) (localPath : Text) (read : Read) (write : Write) (w : ShareWords)
  /-- A MOUNT looks its export up, and may restore it. -/
  | mount (files : Files) (now : Int) (exportPath : Text)
  | remember (now : Int) (exportPath : Text)
  | forget (keep : Text → Bool)
  | toHandle (f : Fs) (path : List Text) (cached : Handle)
  | fromHandle (files : Files) (now : Int) (handle : Handle)
  | invalidate (handle : Handle)
  | evict (cached : Handle)
  | rename (f : Fs) (source : List Text) (g : Fs) (dest : List Text)
  | restart (b : Boot)

/-- A filesystem there is: the root of a share that is exported, or something below one. -/
def Served (s : Handles) (f : Fs) : Prop :=
  f.isRoot = true → ∃ share ∈ s.session.registry.shares.lookup f.exportPath, share.fs = f

instance (s : Handles) (f : Fs) : Decidable (s.Served f) :=
  inferInstanceAs
    (Decidable (_ → ∃ share ∈ s.session.registry.shares.lookup f.exportPath, share.fs = f))

section

variable (h : Host) (join : List Text → Text)

/-- The handle is given out, and noted down for what it is of. -/
def give (s : Handles) (f : Fs) (path : List Text) (cached : Handle) : Handles :=
  let handle := NfsServe.toHandle h f path cached
  if f.isRoot = true ∧ path = [] then { s with roots := (handle, f.exportPath) :: s.roots }
  else if f.isRoot = true ∧ join path = join [] then s
  else { s with others := handle :: s.others }

/-- `Rename`: the entries of the source and below it are those of the destination. -/
def moved (f : Fs) (source : List Text) (g : Fs) (dest : List Text) (entry : Fs × List Text) :
    Fs × List Text :=
  if entry.1 = f ∧ source <+: entry.2 then (g, dest ++ entry.2.drop source.length) else entry

def step (s : Handles) : Event → Option Handles
  | .register files localPath read write w =>
    match s.session.registry.register h files localPath [] ⟨some read, some write⟩ w with
    | .ok (registry, _) => some { s with session := { s.session with registry } }
    | .error _ => some s
  | .mount files now exportPath =>
    some { s with session := (s.session.lookupOrRestore h files now exportPath).1 }
  | .remember now exportPath =>
    match s.session.registry.shares.lookup exportPath with
    | none => none
    | some share =>
      some { s with session := { s.session with store := s.session.store.remember now share } }
  | .forget keep =>
    some { s with session := { s.session with store := s.session.store.forget keep } }
  | .toHandle f path cached =>
    if s.Served f then
      match s.cache.lookup cached with
      | some entry =>
        if entry.1 = f ∧ join entry.2 = join path then some (s.give h join f path cached) else none
      | none =>
        if cached.length = cachedHandleSize ∧ cached ∉ s.used then
          let s := { s with cache := s.cache.insert cached (f, path), used := cached :: s.used }
          some (s.give h join f path cached)
        else none
    else none
  | .fromHandle files now handle => some (s.fromHandle h files now handle).1
  | .invalidate handle =>
    let cached := if handle.length = rootHandleSize then handle.drop exportKeySize else handle
    some { s with cache := s.cache.erase cached }
  | .evict cached => some { s with cache := s.cache.erase cached }
  | .rename f source g dest =>
    -- A rename of the root, or to it, is refused by the filesystem before it comes here.
    if s.Served g ∧ ∀ e ∈ s.cache.entries, e.2.1 = f ∧ source <+: e.2.2 →
        join e.2.2 ≠ join [] ∧ join (dest ++ e.2.2.drop source.length) ≠ join [] then
      some { s with cache := mapTable (fun _ ↦ moved f source g dest) s.cache }
    else none
  | .restart b => some { s with session := b.session h, cache := ∅ }

def machine : Machine Handles Event := ⟨step h join⟩

end

end Handles

end RemoteDocker.NfsServe
