import FanIn.Proofs.Channel.Hushing
import FanIn.Proofs.Script.Hushing

/-!
# Logging decides nothing

What is logged has no bearing on what happens: whatever is done at two thresholds is done in the same way.
At the lower one all there is, and all that is told, is what it is at the higher one without the messages
that do not pass the lower threshold.

Main statement: `logging_decides_nothing`, for worlds of contexts and for channels of their own, whatever
clients do, and for scripts that run on them.
-/

namespace FanIn

open Script (Session spareLevel)

/-- **Logging decides nothing.** Take two thresholds, the first one no higher than the second.

At both, the same moves of clients and of the library are due, and they lead to the same world, but for the
threshold and for the messages that the lower one lets through: these are, with their texts and where they
stand among the other events, the messages at the higher one whose levels pass the lower one. The same holds
of a script that leaves the log level alone, after every step of its session, so for all results, for what
observers and exception handlers are called with, and for what the contexts are like; and if it comes to its
end at one threshold, it does at the other. It holds of channels that belong to no context, and of scripts
that use them, as well. -/
theorem logging_decides_nothing {low high : Log.Level} (h : low.code ≤ high.code) :
    (∀ moves : List Move, (∀ l, .call (.setThreshold l) ∉ moves) →
      World.machine.legal (World.start low) moves = World.machine.legal (World.start high) moves ∧
      World.machine.run (World.start low) moves = (World.machine.run (World.start high) moves).hushed low) ∧
    (∀ steps : List Script.Step, spareLevel steps = true →
      (∀ n, Session.advance^[n] (Session.begun low steps) =
        (Session.advance^[n] (Session.begun high steps)).hushed low) ∧
      ∀ fuel, (Session.start low).perform fuel steps =
        ((Session.start high).perform fuel steps).map (Session.hushed low)) ∧
    (∀ (α : Type) (moves : List (Channel.Move α)),
      Channel.Pool.machine.legal { threshold := low } moves =
        Channel.Pool.machine.legal { threshold := high } moves ∧
      Channel.Pool.machine.run { threshold := low } moves =
        (Channel.Pool.machine.run { threshold := high } moves).hushed low) ∧
    ∀ steps : List Channel.Step,
      (∀ n, Channel.Session.advance^[n] (.start low steps) =
        (Channel.Session.advance^[n] (.start high steps)).hushed low) ∧
      ∀ fuel, Channel.Session.run fuel (.start low steps) =
        (Channel.Session.run fuel (.start high steps)).map (Array.map (Channel.Record.hushed low)) := by
  refine ⟨fun moves hmoves => ?_, fun steps hsteps => ?_, fun α moves => ?_, fun steps => ?_⟩
  · rw [← World.hushed_start h]
    exact ⟨World.legal_hushed hmoves, World.run_hushed hmoves⟩
  · have hbegun := Session.hushes_begun h hsteps
    exact ⟨fun n => (hbegun.iterate n).eq, fun fuel => hbegun.run fuel⟩
  · rw [← Channel.Pool.hushed_start h]
    exact ⟨Channel.Pool.legal_hushed moves, Channel.Pool.run_hushed moves⟩
  · have hstart := Channel.Session.hushes_start h steps
    exact ⟨fun n => (hstart.iterate n).eq, fun fuel => hstart.run fuel⟩

/-- An exception handler returns nothing, which is an error; a call comes too late, which is worth a warning;
and that contexts come and complete is for those who debug. -/
def talkativeSteps : List Script.Step :=
  [.handler "h" .returnsNothing [] false,
    .bridge "root" "a" "" (some "h") { location := some ⟨"box", "a"⟩ },
    .error "root" (some .outOfMemory) none, .success "root" none, .drop "root"]

theorem logging_decides_nothing_talkative :
    Log.Level.error.code ≤ Log.Level.debug.code ∧ spareLevel talkativeSteps = true ∧
      (Session.advance^[24] (Session.begun .debug talkativeSteps)).running.isEmpty = true ∧
      (Session.advance^[24] (Session.begun .debug talkativeSteps)).world.history.size = 15 ∧
      (Session.advance^[24] (Session.begun .error talkativeSteps)).world.history.size = 12 ∧
      Session.advance^[24] (Session.begun .error talkativeSteps) =
        (Session.advance^[24] (Session.begun .debug talkativeSteps)).hushed .error :=
  have hlevels : Log.Level.error.code ≤ Log.Level.debug.code := by decide
  have hspares : spareLevel talkativeSteps = true := by decide +kernel
  ⟨hlevels, hspares, by decide +kernel, by decide +kernel, by decide +kernel,
    ((logging_decides_nothing hlevels).2.1 talkativeSteps hspares).1 24⟩

end FanIn
