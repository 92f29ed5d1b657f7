/-
Results as JSON: error reports, layouts, gates, advice, beliefs about experts, and the records of
runs. The bounds of an interval are rounded to eight decimals.
-/
import Counsel.Config.Write
import Counsel.Experiment
import Counsel.Json.Text

namespace Counsel

open JsonText

def Report.toJsonText (report : Report) : String :=
  object [("code", nat report.code), ("category", text report.category.render),
    ("message", text report.message), ("recoverable", bool report.recoverable)]

def Layout.toJsonText (layout : Layout) : String :=
  object [("names", listOf text layout.names), ("domains", listOf (listOf value) layout.domains),
    ("len", nat layout.places.length), ("empty", bool layout.places.isEmpty),
    ("size", nat layout.size)]

def Layout.briefText (layout : Layout) : String := pair (listOf text layout.names) (nat layout.size)

def Gate.toJsonText (gate : Gate Float) : String :=
  object [("regret", float gate.averageRegret), ("since", nat gate.elapsed),
    ("config", gate.config.toJsonText)]

def AdviceBundle.toJsonText (bundle : AdviceBundle) : String :=
  object [("advice", named (orNull assignment) bundle),
    ("given", listOf text (bundle.given.map (·.1))), ("silent", bool bundle.isSilent)]

namespace Record

def interval (range : Option (Float × Float)) : String :=
  orNull (fun (low, high) => pair (rounded 8 low) (rounded 8 high)) range

def summary (s : ReliabilitySummary Float) : String :=
  object [("rho", float s.rho), ("evaluations", nat s.evaluations),
    ("interval", interval s.interval)]

def summaries (report : Option (NameMap (ReliabilitySummary Float))) : String :=
  orNull (named summary) report

def histories (history : Option (NameMap (Array Float))) : String :=
  orNull (named fun trace => listOf float trace.toList) history

end Record

/-- A belief, with the interval of a level. -/
def Belief.toJsonText (belief : Belief Float) (level : Float) : String :=
  object [("rho", float belief.rho),
    ("counts", pair (float belief.optimal) (float belief.suboptimal)),
    ("evaluations", nat belief.evaluations),
    ("interval", Record.interval (belief.interval level)),
    ("summary", Record.summary (belief.summary level))]

/-- The record of a run, with its totals. -/
def RunRecord.toJsonText (r : RunRecord Float) : String :=
  object [("agent", text r.agent), ("panel", orNull text r.panel),
    ("rewards", listOf float r.rewards), ("regret", orNull (listOf float) r.regret),
    ("reliability", Record.histories r.reliability),
    ("final_reliability", Record.summaries r.finalReliability),
    ("total_reward", float r.totalReward), ("mean_reward", float r.meanReward),
    ("cumulative_regret", orNull float r.cumulativeRegret)]

end Counsel
