import LinearInverse.Cfl.File
import LinearInverse.Inspection
import LinearInverse.Objective
import LinearInverse.Prox.Projection
import LinearInverse.Prox.SoftThreshold
import LinearInverse.Scalar.Binary64
import LinearInverse.Solve
import LinearInverse.Transform.Matrix
import LinearInverse.Transform.Sampling
import LinearInverse.Proofs.Admm.DirectUpdate
import LinearInverse.Proofs.Admm.Energy
import LinearInverse.Proofs.Admm.History
import LinearInverse.Proofs.Admm.ImageUpdate
import LinearInverse.Proofs.Admm.Linear
import LinearInverse.Proofs.Admm.Monotone
import LinearInverse.Proofs.Admm.Optimality
import LinearInverse.Proofs.Admm.Order
import LinearInverse.Proofs.Admm.Stationary
import LinearInverse.Proofs.Admm.Unscaled
import LinearInverse.Proofs.Admm.WellPosed
import LinearInverse.Proofs.Admm.WithoutTerms
import LinearInverse.Proofs.AlternatingProjections
import LinearInverse.Proofs.Binary64.Arithmetic
import LinearInverse.Proofs.Binary64.Bounds
import LinearInverse.Proofs.Binary64.Comparison
import LinearInverse.Proofs.Binary64.Encoding
import LinearInverse.Proofs.Binary64.Error
import LinearInverse.Proofs.Binary64.Faithful
import LinearInverse.Proofs.Binary64.Hypot
import LinearInverse.Proofs.Binary64.Monotone
import LinearInverse.Proofs.Binary64.Operations
import LinearInverse.Proofs.Binary64.Order
import LinearInverse.Proofs.Binary64.Rounding
import LinearInverse.Proofs.Binary64.Squares
import LinearInverse.Proofs.Binary64.Triangle
import LinearInverse.Proofs.Binary64.Value
import LinearInverse.Proofs.Caps
import LinearInverse.Proofs.Cfl.Grammar
import LinearInverse.Proofs.Cfl.Header
import LinearInverse.Proofs.Cfl.Outcome
import LinearInverse.Proofs.Cfl.Overflow
import LinearInverse.Proofs.Cfl.RoundTrip
import LinearInverse.Proofs.Cfl.Sample
import LinearInverse.Proofs.Cfl.Store
import LinearInverse.Proofs.Cfl.Widening
import LinearInverse.Proofs.Classification
import LinearInverse.Proofs.ComplexSpace
import LinearInverse.Proofs.ConjugateGradient.Breakdown
import LinearInverse.Proofs.ConjugateGradient.Conjugacy
import LinearInverse.Proofs.ConjugateGradient.Consistency
import LinearInverse.Proofs.ConjugateGradient.Convergence
import LinearInverse.Proofs.ConjugateGradient.Energy
import LinearInverse.Proofs.ConjugateGradient.Steps
import LinearInverse.Proofs.ConjugateGradient.Stopping
import LinearInverse.Proofs.ConjugateGradient.Termination
import LinearInverse.Proofs.Elements
import LinearInverse.Proofs.Entries
import LinearInverse.Proofs.Grid.Layout
import LinearInverse.Proofs.Grid.Parts
import LinearInverse.Proofs.Iterations
import LinearInverse.Proofs.Observation.Iterations
import LinearInverse.Proofs.Observation.Solve
import LinearInverse.Proofs.Parallel
import LinearInverse.Proofs.Progress
import LinearInverse.Proofs.Prox.Convex
import LinearInverse.Proofs.Prox.Minimisers
import LinearInverse.Proofs.Prox.Projection
import LinearInverse.Proofs.Prox.SoftThreshold
import LinearInverse.Proofs.Reordering
import LinearInverse.Proofs.Reports
import LinearInverse.Proofs.Scaling.Admm
import LinearInverse.Proofs.Scaling.ConjugateGradient
import LinearInverse.Proofs.Scaling.Maps
import LinearInverse.Proofs.Scaling.Solve
import LinearInverse.Proofs.Scaling.Thresholding
import LinearInverse.Proofs.Schedule
import LinearInverse.Proofs.Skipping
import LinearInverse.Proofs.Text
import LinearInverse.Proofs.Thresholding.Acceleration
import LinearInverse.Proofs.Thresholding.Composite
import LinearInverse.Proofs.Thresholding.Descent
import LinearInverse.Proofs.Thresholding.Recursion
import LinearInverse.Proofs.Transform.Buffers
import LinearInverse.Proofs.Transform.Contract
import LinearInverse.Proofs.Transform.Flat
import LinearInverse.Proofs.Transform.Hermitian
import LinearInverse.Proofs.Transform.Sampling
import LinearInverse.Proofs.Words
