import EffectTrees.Annotation.Report
import EffectTrees.Program
import EffectTrees.Proofs.Analysis.Compositional
import EffectTrees.Proofs.Analysis.Rewriting
import EffectTrees.Proofs.Analysis.Simulation
import EffectTrees.Proofs.Builder.Refinement
import EffectTrees.Proofs.Annotation.Occurrence
import EffectTrees.Proofs.Family.Reachable
import EffectTrees.Proofs.Family.Verdict
import EffectTrees.Proofs.Errors.Containment
import EffectTrees.Proofs.Errors.Transparency
import EffectTrees.Proofs.Errors.Outcome
import EffectTrees.Proofs.Tree.Pass
import EffectTrees.Proofs.Tree.Monad
import EffectTrees.Proofs.Tree.Hoist
import EffectTrees.Proofs.Tree.Functor
import EffectTrees.Proofs.Family.Placement
import EffectTrees.Proofs.Annotation.Substitution
import EffectTrees.Proofs.Family.Chain
import EffectTrees.Proofs.Family.FieldTypes
import EffectTrees.Proofs.Family.Flattening
import EffectTrees.Proofs.Family.Inheritance
import EffectTrees.Proofs.Family.Refusal
import EffectTrees.Proofs.Elimination.Morphism
import EffectTrees.Proofs.Elimination.Agreement
import EffectTrees.Proofs.Elimination.Retraction
import EffectTrees.Proofs.Elimination.Postponed
import EffectTrees.Proofs.Elimination.Rebuild
import EffectTrees.Proofs.Builder.Sequence
import EffectTrees.Proofs.Builder.Choice
import EffectTrees.Proofs.Exchange.Likeness
import EffectTrees.Proofs.Elimination.Outermost
import EffectTrees.Proofs.Akin.Builder
import EffectTrees.Proofs.Akin.Elimination
import EffectTrees.Proofs.Akin.Congruence
import EffectTrees.Proofs.Tree.Embedding
import EffectTrees.Proofs.Tree.Applicative
import EffectTrees.Proofs.Elimination.Fusion
import EffectTrees.Proofs.Analysis.Family
import EffectTrees.Proofs.Builder.Regrouping
import EffectTrees.Proofs.Tree.Stack
import EffectTrees.Proofs.Family.SubclassInstances
import EffectTrees.Proofs.Family.Tower
import EffectTrees.Proofs.Descriptor.Laws
