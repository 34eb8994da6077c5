import Heurema.Data.JsonReader
import Heurema.Data.Sha256
import Heurema.Lifecycle.Digest

/-! # A consumer

Text as the identity of members and as both references, the simplest types a
consumer can bring, and three operations on an index of it. -/

namespace Heurema.Consumer

open Serde

@[reducible] def identity : MemberIdentity Str where
  toLinearOrder := linearOrder_str
  toKeyCodec := inferInstance
  debug text := '"' :: text ++ ['"']

@[reducible] def reference : Reference Str where
  toCodec := inferInstance
  decEq := inferInstance

/-- The index `docs/main`. -/
def index : IndexIdentity := ⟨⟨"docs".toList, by decide⟩, ⟨"main".toList, by decide⟩⟩

def key : OperationKey := ⟨"k1".toList, by decide⟩

@[reducible] def sha256 : Digest.Sha256 where
  digest := Sha256.hash
  size := Sha256.hash_length

/-- Creates a full-text index. -/
def created : LifecycleOperation Str Str Str where
  index := index
  key := key
  change := .create (.fts .simple)

/-- Inserts two documents, listed in descending order. -/
def inserted : LifecycleOperation Str Str Str where
  index := index
  key := ⟨"k2".toList, by decide⟩
  change := .insert [
    ⟨"b".toList, "scan-2".toList, .document "red fish".toList⟩,
    ⟨"a".toList, "scan-1".toList, .document "one fish".toList⟩]

/-- Removes a document and an identity that is not there. -/
def removed : LifecycleOperation Str Str Str where
  index := index
  key := ⟨"k3".toList, by decide⟩
  change := .remove ["c".toList, "b".toList]

/-- Another operation under the key of the insertion. -/
def clashing : LifecycleOperation Str Str Str where
  index := index
  key := inserted.key
  change := .remove ["a".toList]

/-- What the consumer asks for. -/
def operations : List (LifecycleOperation Str Str Str) := [created, inserted, removed, clashing]

theorem created_issued : created ∈ operations := List.mem_cons_self

theorem inserted_issued : inserted ∈ operations := List.mem_cons_of_mem _ List.mem_cons_self

theorem removed_issued : removed ∈ operations :=
  List.mem_cons_of_mem _ (List.mem_cons_of_mem _ List.mem_cons_self)

theorem clashing_issued : clashing ∈ operations :=
  List.mem_cons_of_mem _ (List.mem_cons_of_mem _ (List.mem_cons_of_mem _ List.mem_cons_self))

end Heurema.Consumer
