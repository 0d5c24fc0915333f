import ParityGames.Main
import ParityGames.Proofs.Zielonka.Solved
import ParityGames.Proofs.Promotion.Solved
import ParityGames.Proofs.Progress.Solved
import ParityGames.Proofs.Improvement.Solved
import ParityGames.Proofs.Improvement.Least
import ParityGames.Proofs.Improvement.Distances
import ParityGames.Proofs.Improvement.Ratings
import ParityGames.Proofs.Improvement.Walks
import ParityGames.Proofs.Improvement.Progress
import ParityGames.Proofs.Improvement.Rounds
import ParityGames.Proofs.Improvement.Parts
import ParityGames.Proofs.Progress.Fixpoint
import ParityGames.Proofs.Game.Index
import ParityGames.Proofs.Game.Composition
import ParityGames.Proofs.GameFile.Reading
import ParityGames.Proofs.CommandLine.Report
import ParityGames.Proofs.Attractor.Alike
import ParityGames.Proofs.GameFile.Joined
import ParityGames.Proofs.Improvement.Alike
import ParityGames.Proofs.Progress.Alike
import ParityGames.Proofs.Promotion.Alike
import ParityGames.Proofs.Run.Followed
import ParityGames.Proofs.Solver.Alike
import ParityGames.Proofs.Attractor.Least
import ParityGames.Proofs.GameFile.Assembled
import ParityGames.Proofs.Solver.Endings
import ParityGames.Proofs.Solver.Regions
import ParityGames.Proofs.GameFile.Legal
import ParityGames.Proofs.Improvement.Optimal
import ParityGames.Proofs.Attractor.Arrival
import ParityGames.Proofs.GameFile.Portrayed
import ParityGames.Proofs.Game.Kept
import ParityGames.Proofs.Progress.Calls
import ParityGames.Proofs.Improvement.Limited
import ParityGames.Proofs.Solution.Flaws
import ParityGames.Proofs.VertexSet.Refined
import ParityGames.Proofs.Promotion.Visited
import ParityGames.Proofs.Improvement.Connected
import ParityGames.Proofs.Progress.Demands
import ParityGames.Proofs.Improvement.Preferred
import ParityGames.Proofs.Zielonka.Descent
