/-
HueCycle.Animate — from a source image and settings to an animation.
-/
import HueCycle.Animation
import HueCycle.Render.Renderer
import HueCycle.Settings
import HueCycle.Source

namespace HueCycle

open Render

/-- The renderer of a source on a schedule. -/
def Source.renderer (source : Source) (schedule : Schedule) : Renderer :=
  ⟨source.baseline, schedule⟩

/-- Render every frame that the settings ask for, with the jobs of a pool
finishing as `pool` says. -/
def animateOn (pool : Pool) (source : Source) (settings : Settings) (threading : Threading) :
    Except Error (Animation × Stats) := do
  let schedule ← settings.schedule
  let (frames, stats) ←
    (source.renderer schedule).framesOn pool schedule.range threading
  let animation ←
    Animation.make (frames.map Frame.image) schedule.delay settings.loopMode
  return (animation, stats)

/-- Render every frame that the settings ask for. -/
def animate : Source → Settings → Threading → Except Error (Animation × Stats) :=
  animateOn Pool.inOrder

end HueCycle
