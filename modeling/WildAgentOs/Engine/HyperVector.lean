import WildAgentOs.Lib.F64
import WildAgentOs.Lib.LittleEndian

/-!
# Vectors and metrics

`hyper_vector.rs` and `metric.rs`: an embedding vector with its metric and precomputed `alpha`,
and the distance of two vectors.  The float arithmetic of the distances is a parameter; what is
modelled is where they panic.
-/

namespace WildAgentOs.Engine

inductive MetricKind
  | cosine
  | poincare
  | lorentz
  | euclidean
  deriving DecidableEq

structure EmbeddingVector where
  coords : List F64
  metric : MetricKind
  alpha : F64
  deriving DecidableEq

/-- `Box<dyn Metric>`: its kind, and the distances it computes where it does not panic. -/
structure Metric where
  kind : MetricKind
  value : EmbeddingVector → EmbeddingVector → F64

/-- `Metric::distance`.  `lorentz_inner` indexes both vectors up to the length of the first and
panics beyond the end of the second; the other metrics zip them. -/
def Metric.distance (metric : Metric) (a b : EmbeddingVector) : Option F64 :=
  if metric.kind = .lorentz ∧ ¬ (0 < a.coords.length ∧ a.coords.length ≤ b.coords.length) then none
  else some (metric.value a b)

/-- Vectors of `dim` coordinates, where the metric asks for it. -/
def Metric.Admits (metric : Metric) (dim : ℕ) (v : EmbeddingVector) : Prop :=
  metric.kind = .lorentz → v.coords.length = dim ∧ 0 < dim

theorem Metric.distance_some {metric : Metric} {dim : ℕ} {a b : EmbeddingVector} (ha : metric.Admits dim a)
    (hb : metric.Admits dim b) : metric.distance a b = some (metric.value a b) := by
  refine if_neg ?_
  rintro ⟨hkind, hlen⟩
  obtain ⟨hadim, hdim⟩ := ha hkind
  obtain ⟨hbdim, -⟩ := hb hkind
  omega

end WildAgentOs.Engine
