import PackedBits.Word
import PackedBits.Failure

/-! Providers. A provider grants blocks of words and takes them back. What it answers to a request
is a policy, which may depend on how many requests came before; the provider itself keeps the
books: the blocks now granted, and how many grants and releases there have been. A release that
names no granted block of exactly that size is an access gone wild. -/
namespace PackedBits

structure Request where
  /-- The number of requests before this one. -/
  serial : Nat
  /-- The width of a word in bits. -/
  width : Nat
  words : Nat
deriving DecidableEq, Repr

/-- A granted block: its address in bytes and its size in words. -/
structure Grant where
  address : Nat
  words : Nat
deriving DecidableEq, Repr

abbrev Policy := Request → Except Error Nat

structure Provider where
  policy : Policy
  requests : Nat
  grants : Nat
  releases : Nat
  live : List Grant

namespace Provider

def of (policy : Policy) : Provider := ⟨policy, 0, 0, 0, []⟩

def liveWords (provider : Provider) : Nat :=
  provider.live.foldl (fun total grant => total + grant.words) 0

def allocate (width words : Nat) : Attempt Provider Nat := do
  let provider ← get
  match provider.policy ⟨provider.requests, width, words⟩ with
  | .ok address =>
      set { provider with
        requests := provider.requests + 1
        grants := provider.grants + 1
        live := ⟨address, words⟩ :: provider.live }
      return address
  | .error error =>
      set { provider with requests := provider.requests + 1 }
      Attempt.fail error

def release (address words : Nat) : Attempt Provider Unit := do
  let provider ← get
  if ⟨address, words⟩ ∈ provider.live then
    set { provider with
      releases := provider.releases + 1
      live := provider.live.erase ⟨address, words⟩ }
  else throw .wild

def addressSpace : Nat := 1 <<< 47

/-- The machine's own policy. A block may not exceed the largest signed size in bytes; one that the
address space cannot hold is refused. Every request has an address of its own. -/
def machine : Policy := fun request =>
  let bytes := request.words * (request.width / 8)
  if maxSigned < bytes then
    .error (.capacityExceeded (min (request.words * request.width) maxSize) maxSigned)
  else if addressSpace ≤ bytes then .error (.allocFailed request.words)
  else .ok (4096 + 16 * request.serial)

def capped (limit : Nat) (policy : Policy) : Policy := fun request =>
  if limit < request.words then .error (.allocFailed request.words) else policy request

def raised (policy : Policy) : Policy := fun request =>
  (policy request).map (· + 1 <<< 48)

end Provider

end PackedBits
