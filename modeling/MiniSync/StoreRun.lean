import MiniSync.Kernel
import MiniSync.Store

/-!
# Runs on one store
-/

namespace MiniSync

/-- Between two events the store stays as it is, whatever else changes. -/
structure Meanwhile (cwd : TreePath) (root : Bytes) (w w' : World) : Prop where
  grounded : w'.tree.Grounded
  store : ∀ q, storeRoot cwd root <+: q → w'.tree.lookup q = w.tree.lookup q

/-- Events from `w` to `w'`, each with the worlds before and after it. -/
def IsStoreRun {ε : Type} (cwd : TreePath) (root : Bytes) (before after : ε → World)
    (happens : ε → Prop) : World → List ε → World → Prop
  | w, [], w' => Meanwhile cwd root w w'
  | w, e :: es, w' => Meanwhile cwd root w (before e) ∧ happens e ∧
      IsStoreRun cwd root before after happens (after e) es w'

end MiniSync
