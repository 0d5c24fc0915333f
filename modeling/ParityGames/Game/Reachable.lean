import ParityGames.Game.Builder
import ParityGames.Game.Projection

/-!
# Games that can be made

Every game starts as a built one and is then cut down or given other priorities, any number of
times. The indexes of a game are only as good as these operations keep them, so what is said about
games is said about the games that can be made.
-/

namespace ParityGames

inductive Game.Reachable : Game → Prop where
  | build {b : GameBuilder} {g : Game} (made : b.build = .ok g) : Reachable g
  | subgame {g part : Game} {keep : VertexSet} (reached : Reachable g)
      (made : g.subgame keep = .ok part) : Reachable part
  | difference {g : Game} (dropped : VertexSet) (reached : Reachable g) :
      Reachable (g.difference dropped)
  | setPriority {g changed : Game} {v priority : Nat} (reached : Reachable g)
      (made : g.setPriority v priority = .ok changed) : Reachable changed

end ParityGames
