/-!
# Kinds of display objects

The type under which a scene's object is declared, by its kind in the editor.
A kind that is not known here has no type of its own.
-/

namespace SceneSync.ObjectKind

/-- Kinds that name a class of the game objects themselves. -/
def gameObjects : List String :=
  ["Image", "Sprite", "TileSprite", "NineSlice", "ThreeSlice", "Video", "Container", "Layer",
   "Text", "BitmapText", "Rectangle", "Ellipse", "Triangle", "Polygon",
   "RoundedRectangleGraphics", "RoundedRectangleImage"]

def otherKinds : List (String × String) :=
  [("ArcadeImage", "Phaser.Physics.Arcade.Image"),
   ("ArcadeSprite", "Phaser.Physics.Arcade.Sprite"),
   ("Collider", "Phaser.Physics.Arcade.Collider"),
   ("b2Body", "b2Body"),
   ("b2OffsetPolygonShape", "b2OffsetPolygonShape"),
   ("b2BoxShape", "b2BoxShape"),
   ("b2PolygonShape", "b2PolygonShape"),
   ("ParticleEmitter", "Phaser.GameObjects.Particles.ParticleEmitter"),
   ("TilemapLayer", "Phaser.Tilemaps.TilemapLayer"),
   ("Tilemap", "Phaser.Tilemaps.Tilemap"),
   ("EditableTilemap", "Phaser.Tilemaps.Tilemap"),
   ("SpineGameObject", "SpineGameObject")]

def unknownType : String := "any"

def typeOf (kind : String) : String :=
  if gameObjects.contains kind then "Phaser.GameObjects." ++ kind
  else (otherKinds.lookup kind).getD unknownType

end SceneSync.ObjectKind
