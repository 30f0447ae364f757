import OpenPgTde.Providers.File

/-!
When a change of a provider is accepted.

A header refers to its provider by id: a negative one is that of a global provider, any other that
of a provider of the scope's own file. Changing a provider may make keys unreachable, so before the
change the keys in use are fetched from the provider as it will be and compared with the signatures
of their headers. The search for these keys goes over the server scope and the databases and compares
ids only.
-/

namespace OpenPgTde

open Lib.Effect Lib.SlotArray

variable {w : World} {s t u : Server} {scope : Oid} {c : ProviderCall}

/-! ### Keys at a changed provider -/

/-- A change of the options of a provider that can be loaded and pass the validation. -/
structure ChangeRequest where
  typeName : List UInt8
  name : List UInt8
  options : List UInt8
  known : getKeyringProviderFromTypename typeName ≠ .unknown
  size : options.length < maxKeyringOptionLen

def ChangeRequest.call (q : ChangeRequest) : ProviderCall :=
  ⟨true, some q.typeName, some q.name, some q.options, true, true⟩

/-- The provider of this id as it will be. -/
def ChangeRequest.record (q : ChangeRequest) (providerId : ℤ) : KeyringProviderRecord :=
  ⟨providerId, q.name, q.options, getKeyringProviderFromTypename q.typeName⟩

variable {q : ChangeRequest} {offset : ℕ} {record : KeyringProviderRecord}

end OpenPgTde
